import FreeVMS.Rtl.ConvertFloat

/-!
# Conversions that are right

The exponent and the sign of a normal number arrive in the output as they should, the exponent if its
field can hold it.  The fraction does between formats with the same width of the exponent; on the way
from an exponent of 8 bits to one of 11 and back it is shifted by the wrong three bits.
-/

namespace FreeVMS.Rtl.Cvt

open Lib.BitField Lib.BinaryFloat

/-! ### The union -/

/-- The union when the fraction of a float with an exponent of 8 bits was put into it. -/
def fill8 (f : Frac) (one : BitVec 7) (two three four : BitVec 16) : Frac :=
  f |> Exp8.one.set one |> Exp8.two.set two |> Exp8.three.set three |> Exp8.four.set four
    |> Exp8.five.set 0

/-- The same for an exponent of 11 bits. -/
def fill11 (f : Frac) (one : BitVec 4) (two three four : BitVec 16) : Frac :=
  f |> Exp11.one.set one |> Exp11.two.set two |> Exp11.three.set three |> Exp11.four.set four
    |> Exp11.five.set 0

/-- The bits between `four` and `three`, which nothing is put into with an exponent of 8 bits. -/
def padding (f : Frac) : Nat := (f.extractLsb' 25 3).toNat

/-- The bits behind `one`, which nothing is put into with an exponent of 11 bits. -/
def upper (f : Frac) : Nat := (f.extractLsb' 68 3).toNat

section Union

variable (f : Frac) (two three four : BitVec 16)

theorem exp8_fill8 (one : BitVec 7) :
    Exp8.one.get (fill8 f one two three four) = one ∧
      Exp8.two.get (fill8 f one two three four) = two ∧
      Exp8.three.get (fill8 f one two three four) = three ∧
      Exp8.four.get (fill8 f one two three four) = four := by
  unfold fill8
  refine ⟨?_, ?_, ?_, ?_⟩ <;>
    simp (disch := decide) only [Member.get_set_apart, Member.get_set_same]

theorem exp11_fill11 (one : BitVec 4) :
    Exp11.one.get (fill11 f one two three four) = one ∧
      Exp11.two.get (fill11 f one two three four) = two ∧
      Exp11.three.get (fill11 f one two three four) = three ∧
      Exp11.four.get (fill11 f one two three four) = four := by
  unfold fill11
  refine ⟨?_, ?_, ?_, ?_⟩ <;>
    simp (disch := decide) only [Member.get_set_apart, Member.get_set_same]

/-- What the other structure makes of a fraction: it loses its first three bits, and the padding gets
    between its last words. -/
theorem exp11_fill8 (one : BitVec 7) :
    (Exp11.one.get (fill8 f one two three four)).toNat = one.toNat % 2 ^ 4 ∧
      Exp11.two.get (fill8 f one two three four) = two ∧
      Exp11.three.get (fill8 f one two three four) = three ∧
      (Exp11.four.get (fill8 f one two three four)).toNat =
        four.toNat / 2 ^ 3 + 2 ^ 13 * padding f := by
  refine ⟨?_, (exp8_fill8 f two three four one).2.1, (exp8_fill8 f two three four one).2.2.1, ?_⟩
  · unfold fill8 Member.get Member.set Exp11.one Exp8.one Exp8.two Exp8.three Exp8.four Exp8.five
    simp (disch := decide) only [extract_put_apart]
    rw [extract_put_inside (by decide) (by decide) (by decide), BitVec.extractLsb'_toNat]
    rfl
  · have hlow : ((fill8 f one two three four).extractLsb' 12 13).toNat = four.toNat / 2 ^ 3 := by
      unfold fill8 Member.set Exp8.one Exp8.two Exp8.three Exp8.four Exp8.five
      rw [extract_put_apart (by decide), extract_put_inside (by decide) (by decide) (by decide),
        BitVec.extractLsb'_toNat, Nat.shiftRight_eq_div_pow]
      have hfour := four.isLt
      exact Nat.mod_eq_of_lt (show four.toNat / 2 ^ 3 < 2 ^ 13 by omega)
    have hhigh : (fill8 f one two three four).extractLsb' 25 3 = f.extractLsb' 25 3 := by
      unfold fill8 Member.set Exp8.one Exp8.two Exp8.three Exp8.four Exp8.five
      simp (disch := decide) only [extract_put_apart]
    have hsplit := toNat_extract_add (fill8 f one two three four) 12 13 3
    rw [hlow, hhigh] at hsplit
    exact hsplit

/-- The way back: the upper bits get in front of the fraction, and its last word loses three bits. -/
theorem exp8_fill11 (one : BitVec 4) :
    (Exp8.one.get (fill11 f one two three four)).toNat = one.toNat + 2 ^ 4 * upper f ∧
      Exp8.two.get (fill11 f one two three four) = two ∧
      Exp8.three.get (fill11 f one two three four) = three ∧
      (Exp8.four.get (fill11 f one two three four)).toNat = 2 ^ 3 * (four.toNat % 2 ^ 13) := by
  refine ⟨?_, (exp11_fill11 f two three four one).2.1, (exp11_fill11 f two three four one).2.2.1, ?_⟩
  · have hlow : (fill11 f one two three four).extractLsb' 64 4 = one :=
      (exp11_fill11 f two three four one).1
    have hhigh : (fill11 f one two three four).extractLsb' 68 3 = f.extractLsb' 68 3 := by
      unfold fill11 Member.set Exp11.one Exp11.two Exp11.three Exp11.four Exp11.five
      simp (disch := decide) only [extract_put_apart]
    have hsplit := toNat_extract_add (fill11 f one two three four) 64 4 3
    rw [hlow, hhigh] at hsplit
    exact hsplit
  · have hlow : ((fill11 f one two three four).extractLsb' 9 3).toNat = 0 := by
      unfold fill11 Member.set Exp11.five
      rw [extract_put_inside (by decide) (by decide) (by decide)]
      rfl
    have hhigh : ((fill11 f one two three four).extractLsb' 12 13).toNat = four.toNat % 2 ^ 13 := by
      unfold fill11 Member.set Exp11.four Exp11.five
      rw [extract_put_apart (by decide), extract_put_inside (by decide) (by decide) (by decide),
        BitVec.extractLsb'_toNat]
      rfl
    have hsplit := toNat_extract_add (fill11 f one two three four) 9 3 13
    rw [hlow, hhigh, Nat.zero_add] at hsplit
    exact hsplit

end Union

/-- The fraction that is taken out of the union again. -/
def taken (f : Frac) : FloatType → Nat
  | .vaxF => (Exp8.one.get f).toNat * 2 ^ 16 + (Exp8.two.get f).toNat
  | .vaxD => (Exp8.one.get f).toNat * 2 ^ 48 + (Exp8.two.get f).toNat * 2 ^ 32 +
      (Exp8.three.get f).toNat * 2 ^ 16 + (Exp8.four.get f).toNat
  | .ieeeS => (Exp8.one.get f).toNat * 2 ^ 16 + (Exp8.two.get f).toNat
  | .ieeeT => (Exp11.one.get f).toNat * 2 ^ 48 + (Exp11.two.get f).toNat * 2 ^ 32 +
      (Exp11.three.get f).toNat * 2 ^ 16 + (Exp11.four.get f).toNat

namespace FloatType

def expBits : FloatType → Nat
  | vaxF => 8
  | vaxD => 8
  | ieeeS => 8
  | ieeeT => 11

theorem fraction_lt (t : FloatType) (p : BitVec 64) : t.fraction p < 2 ^ t.format.fracBits := by
  cases t with
  | vaxF =>
    have h1 := (VaxF.f1.get p).isLt
    have h2 := (VaxF.f2.get p).isLt
    simp only [fraction, format]
    omega
  | vaxD =>
    have h1 := (VaxD.f1.get p).isLt
    have h2 := (VaxD.f2.get p).isLt
    have h3 := (VaxD.f3.get p).isLt
    have h4 := (VaxD.f4.get p).isLt
    simp only [fraction, format]
    omega
  | ieeeS =>
    have h1 := (IeeS.f1.get p).isLt
    have h2 := (IeeS.f2.get p).isLt
    simp only [fraction, format]
    omega
  | ieeeT =>
    have h1 := (IeeT.f1.get p).isLt
    have h2 := (IeeT.f2.get p).isLt
    have h3 := (IeeT.f3.get p).isLt
    have h4 := (IeeT.f4.get p).isLt
    simp only [fraction, format]
    omega

end FloatType

/-- What the second switch writes when none of the flags is set. -/
theorem pack_spec {u : Unpacked} (hzero : u.zero = false) (hnan : u.nan = false)
    (hroprand : u.roprand = false) (o : BitVec 64) (t : FloatType) :
    t.negative (pack u o t) = (u.sign == 1) ∧
      (t.expField (pack u o t) : Int) = (u.exp + (t.format.bias - 1)) % 2 ^ t.expBits ∧
      t.fraction (pack u o t) = taken u.f t := by
  cases t with
  | vaxF =>
    simp (disch := decide) only [pack, hzero, hroprand, FloatType.negative, FloatType.expField,
      FloatType.fraction, taken, Member.get_set_apart, Member.get_set_same, if_false,
      Bool.false_eq_true, BitVec.toNat_ofInt]
    refine ⟨trivial, ?_, trivial⟩
    simp only [FloatType.format, FloatType.expBits]
    omega
  | vaxD =>
    simp (disch := decide) only [pack, hzero, hroprand, FloatType.negative, FloatType.expField,
      FloatType.fraction, taken, Member.get_set_apart, Member.get_set_same, if_false,
      Bool.false_eq_true, BitVec.toNat_ofInt]
    refine ⟨trivial, ?_, trivial⟩
    simp only [FloatType.format, FloatType.expBits]
    omega
  | ieeeS =>
    simp (disch := decide) only [pack, hzero, hnan, FloatType.negative, FloatType.expField,
      FloatType.fraction, taken, Member.get_set_apart, Member.get_set_same, if_false,
      Bool.false_eq_true, BitVec.toNat_ofInt]
    refine ⟨trivial, ?_, trivial⟩
    simp only [FloatType.format, FloatType.expBits]
    omega
  | ieeeT =>
    simp (disch := decide) only [pack, hzero, hnan, FloatType.negative, FloatType.expField,
      FloatType.fraction, taken, Member.get_set_apart, Member.get_set_same, if_false,
      Bool.false_eq_true, BitVec.toNat_ofInt]
    refine ⟨trivial, ?_, trivial⟩
    simp only [FloatType.format, FloatType.expBits]
    omega

/-- The exponent field is not one of those that the code takes for something else: zero for VAX floats,
    overflow for IEEE floats. -/
def FloatType.Ordinary (t : FloatType) (p : BitVec 64) : Prop := t.expField p + 2 < 2 ^ t.expBits

instance (t : FloatType) (p : BitVec 64) : Decidable (t.Ordinary p) :=
  inferInstanceAs (Decidable (_ < _))

/-- A word that has another exponent than `c` is not `c`. -/
theorem word_beq_false {w : Nat} {word : Member 32} {outer inner : Member w} {p : BitVec 64}
    {c : BitVec 32} (hexp : outer.get p = inner.get (word.get p))
    (hne : outer.get p ≠ inner.get c) : (word.get p == c) = false := by
  rw [beq_eq_false_iff_ne]
  rintro rfl
  exact hne hexp

/-- The exponents of normal numbers are neither zero nor the last one. -/
theorem exp_ne_of_normal {w : Nat} {e c : BitVec w} {max : Int} (hmin : (1 : Int) ≤ e.toNat)
    (hmax : (e.toNat : Int) ≤ max) (hc : c = 0 ∨ max < c.toNat) : e ≠ c := by
  rintro rfl
  rcases hc with rfl | hc
  · exact absurd hmin (by simp)
  · exact absurd hmax (Int.not_le.mpr hc)

/-- The exponent that is taken for an overflow. -/
theorem beq_last_exp {e n : Nat} (he : (e : Int) ≤ n) :
    (e == n) = !decide (e + 2 < n + 2) := by
  grind

/-- What the first switch makes of a normal number. -/
theorem unpack_spec (f : Frac) {p : BitVec 64} {t : FloatType} (hp : t.Normal p) :
    ((unpack f p t).sign == 1) = t.negative p ∧
      (unpack f p t).exp = t.expField p - (t.format.bias - 1) ∧
      (unpack f p t).inf = false ∧ (unpack f p t).nan = false ∧
      (unpack f p t).zero = (t.vax && !decide (t.Ordinary p)) ∧
      (unpack f p t).over_ = (!t.vax && !decide (t.Ordinary p)) ∧
      (unpack f p t).roprand = (!t.vax && !decide (t.Ordinary p)) := by
  obtain ⟨hmin, hmax⟩ := hp
  cases t with
  | vaxF =>
    simp only [FloatType.format, FloatType.expField] at hmin hmax
    have hexp : VaxF.exp.get p = VaxF.exp.get (l1.get p) := l1.get_within VaxF.exp (by decide) p
    have hnan : (l1.get p == 0x00008000) = false :=
      word_beq_false hexp (exp_ne_of_normal hmin hmax (by decide))
    refine ⟨rfl, rfl, rfl, hnan, ?_, rfl, rfl⟩
    simp only [unpack, hnan, FloatType.vax, FloatType.Ordinary, FloatType.expField,
      FloatType.expBits]
    grind
  | vaxD =>
    simp only [FloatType.format, FloatType.expField] at hmin hmax
    have hexp : VaxD.exp.get p = VaxD.exp.get (l1.get p) := l1.get_within VaxD.exp (by decide) p
    have hnan : (l1.get p == 0x00008000 && l2.get p == 0x00000000) = false := by
      rw [word_beq_false hexp (exp_ne_of_normal hmin hmax (by decide)), Bool.false_and]
    refine ⟨rfl, rfl, rfl, hnan, ?_, rfl, rfl⟩
    simp only [unpack, hnan, FloatType.vax, FloatType.Ordinary, FloatType.expField,
      FloatType.expBits]
    grind
  | ieeeS =>
    simp only [FloatType.format, FloatType.expField] at hmin hmax
    have hexp : IeeS.exp.get p = IeeS.exp.get (l1.get p) := l1.get_within IeeS.exp (by decide) p
    have hne : ∀ c : BitVec 32, (IeeS.exp.get c = 0 ∨ 254 < ((IeeS.exp.get c).toNat : Int)) →
        (l1.get p == c) = false := fun c hc =>
      word_beq_false hexp (exp_ne_of_normal hmin hmax hc)
    have hover : ((IeeS.exp.get p).toNat == 0xfe) = !decide ((IeeS.exp.get p).toNat + 2 < 2 ^ 8) :=
      beq_last_exp hmax
    have hnan : ((IeeS.exp.get p).toNat == 0xff) = false := by
      grind
    refine ⟨rfl, rfl, ?_, hnan, ?_, hover, ?_⟩
    · simp only [unpack, hne 0x7f800000 (by decide), hne 0xff800000 (by decide), Bool.or_self]
    · simp only [unpack, hne 0x00000000 (by decide), hne 0x80000000 (by decide), Bool.or_self]
      rfl
    · simp only [unpack, hnan, Bool.or_false]
      exact hover
  | ieeeT =>
    simp only [FloatType.format, FloatType.expField] at hmin hmax
    have hexp : IeeT.exp.get p = (⟨20⟩ : Member 11).get (l2.get p) :=
      l2.get_within ⟨20⟩ (by decide) p
    have hne : ∀ c : BitVec 32, ((⟨20⟩ : Member 11).get c = 0 ∨
        2046 < (((⟨20⟩ : Member 11).get c).toNat : Int)) → (l2.get p == c) = false := fun c hc =>
      word_beq_false hexp (exp_ne_of_normal hmin hmax hc)
    have hover : ((IeeT.exp.get p).toNat == 0x7fe) =
        !decide ((IeeT.exp.get p).toNat + 2 < 2 ^ 11) := beq_last_exp hmax
    have hnan : ((IeeT.exp.get p).toNat == 0x7ff) = false := by
      grind
    refine ⟨rfl, rfl, ?_, hnan, ?_, hover, ?_⟩
    · simp only [unpack, hne 0x7ff00000 (by decide), hne 0xfff00000 (by decide), Bool.or_self,
        Bool.false_and]
    · simp only [unpack, hne 0x00000000 (by decide), hne 0x80000000 (by decide), Bool.or_self,
        Bool.false_and]
      rfl
    · simp only [unpack, hnan, Bool.or_false]
      exact hover

/-- The conversion goes from an exponent of 8 bits to one of 11, or back. -/
def Crosses (t t' : FloatType) : Prop := t.expBits ≠ t'.expBits

instance (t t' : FloatType) : Decidable (Crosses t t') := inferInstanceAs (Decidable (_ ≠ _))

/-- The fraction gets through the union unharmed.  On the way from one structure to the other it is
    shifted by three bits, for which three bits come in that were in the union before: it has to be
    these three bits over and over. -/
def Kept (f : Frac) (p : BitVec 64) (t t' : FloatType) : Prop :=
  Crosses t t' →
    match t' with
    | .ieeeT => t.format.cut FloatType.vaxD.format (t.fraction p) / 2 ^ 16 =
        padding f * 0o1111111111111
    | .vaxD => t.fraction p / 2 ^ 13 = upper f * 0o1111111111111
    | _ => t.fraction p / 2 ^ 29 = upper f * 0o11111111 / 2

theorem kept_of_same {f : Frac} {p : BitVec 64} {t t' : FloatType} (h : ¬ Crosses t t') :
    Kept f p t t' := fun hcross => absurd hcross h

theorem padding_lt (f : Frac) : padding f < 2 ^ 3 := (f.extractLsb' 25 3).isLt

theorem upper_lt (f : Frac) : upper f < 2 ^ 3 := (f.extractLsb' 68 3).isLt

section Fractions

variable (f : Frac) (two three four : BitVec 16)

/-- A fraction from a float with an exponent of 8 bits, in a T float. -/
theorem taken_fill8 (one : BitVec 7) {n : Nat}
    (hn : n = one.toNat * 2 ^ 48 + two.toNat * 2 ^ 32 + three.toNat * 2 ^ 16 + four.toNat) :
    taken (fill8 f one two three four) .ieeeT =
      n % 2 ^ 52 / 2 ^ 16 * 2 ^ 16 + n % 2 ^ 16 / 2 ^ 3 + 2 ^ 13 * padding f := by
  obtain ⟨h1, h2, h3, h4⟩ := exp11_fill8 f two three four one
  have htwo := two.isLt
  have hthree := three.isLt
  have hfour := four.isLt
  rw [taken, h1, h2, h3, h4]
  omega

/-- A fraction from a T float, in a float with a fraction of 23 bits and in a D float. -/
theorem taken_fill11 (one : BitVec 4) {n : Nat}
    (hn : n = one.toNat * 2 ^ 48 + two.toNat * 2 ^ 32 + three.toNat * 2 ^ 16 + four.toNat) :
    taken (fill11 f one two three four) .vaxF = n / 2 ^ 32 + 2 ^ 20 * upper f ∧
      taken (fill11 f one two three four) .vaxD =
        n / 2 ^ 16 * 2 ^ 16 + n % 2 ^ 13 * 2 ^ 3 + 2 ^ 52 * upper f := by
  obtain ⟨h1, h2, h3, h4⟩ := exp8_fill11 f two three four one
  have htwo := two.isLt
  have hthree := three.isLt
  have hfour := four.isLt
  rw [taken, taken, h1, h2, h3, h4]
  constructor
  · omega
  · omega

end Fractions

/-- **The fraction**, from a float with an exponent of 8 bits: `n` is what it is in a D float. -/
theorem taken_fill8_iff_kept {f : Frac} {p : BitVec 64} {t : FloatType} (one : BitVec 7)
    (two three four : BitVec 16) (ht : t.expBits = 8)
    (hcut : ∀ t' : FloatType, t.format.cut t'.format (t.fraction p) =
      (one.toNat * 2 ^ 48 + two.toNat * 2 ^ 32 + three.toNat * 2 ^ 16 + four.toNat) /
        2 ^ (55 - t'.format.fracBits)) (t' : FloatType) :
    taken (fill8 f one two three four) t' = t.format.cut t'.format (t.fraction p) ↔
      Kept f p t t' := by
  obtain ⟨h1, h2, h3, h4⟩ := exp8_fill8 f two three four one
  have htwo := two.isLt
  have hthree := three.isLt
  have hfour := four.isLt
  cases t' with
  | vaxF =>
    refine iff_of_true ?_ (kept_of_same fun h => h ht)
    rw [hcut, taken, h1, h2]
    simp only [FloatType.format]
    omega
  | vaxD =>
    refine iff_of_true ?_ (kept_of_same fun h => h ht)
    rw [hcut, taken, h1, h2, h3, h4]
    simp only [FloatType.format]
    omega
  | ieeeS =>
    refine iff_of_true ?_ (kept_of_same fun h => h ht)
    rw [hcut, taken, h1, h2]
    simp only [FloatType.format]
    omega
  | ieeeT =>
    have hdouble := hcut .vaxD
    rw [show 55 - FloatType.vaxD.format.fracBits = 0 from rfl, Nat.pow_zero, Nat.div_one] at hdouble
    have hcross : Crosses t .ieeeT := by
      rw [Crosses, ht]
      decide
    have hkept : Kept f p t .ieeeT ↔ _ / 2 ^ 16 = padding f * 0o1111111111111 :=
      ⟨fun h => h hcross, fun h _ => h⟩
    have hpadding := padding_lt f
    have hone := one.isLt
    rw [hkept, hdouble, hcut, taken_fill8 f two three four one rfl,
      show 55 - FloatType.ieeeT.format.fracBits = 3 from rfl]
    omega

/-- **The fraction.** -/
theorem taken_iff_kept (f : Frac) (p : BitVec 64) (t t' : FloatType) :
    taken (unpack f p t).f t' = t.format.cut t'.format (t.fraction p) ↔ Kept f p t t' := by
  cases t with
  | vaxF =>
    refine taken_fill8_iff_kept (VaxF.f1.get p) (VaxF.f2.get p) 0 0 rfl (fun t' => ?_) t'
    cases t' <;> simp only [Format.cut, FloatType.format, FloatType.fraction, BitVec.ofNat_eq_ofNat,
      BitVec.toNat_ofNat, Nat.zero_mod] <;> omega
  | vaxD =>
    refine taken_fill8_iff_kept (VaxD.f1.get p) (VaxD.f2.get p) (VaxD.f3.get p)
      (VaxD.f4.get p) rfl (fun t' => ?_) t'
    cases t' <;> simp only [Format.cut, FloatType.format, FloatType.fraction] <;> omega
  | ieeeS =>
    refine taken_fill8_iff_kept (IeeS.f1.get p) (IeeS.f2.get p) 0 0 rfl (fun t' => ?_) t'
    cases t' <;> simp only [Format.cut, FloatType.format, FloatType.fraction, BitVec.ofNat_eq_ofNat,
      BitVec.toNat_ofNat, Nat.zero_mod] <;> omega
  | ieeeT =>
    have hfill := taken_fill11 f (IeeT.f2.get p) (IeeT.f3.get p) (IeeT.f4.get p) (IeeT.f1.get p) rfl
    have hfraction := FloatType.ieeeT.fraction_lt p
    have hupper := upper_lt f
    simp only [FloatType.format] at hfraction
    have hcross : t' ≠ .ieeeT → Crosses .ieeeT t' := by
      cases t' <;> decide
    cases t' with
    | vaxF =>
      have hkept : Kept f p .ieeeT .vaxF ↔ FloatType.ieeeT.fraction p / 2 ^ 29 = _ :=
        ⟨fun h => h (hcross (by decide)), fun h _ => h⟩
      rw [hkept, show taken (unpack f p .ieeeT).f .vaxF = _ from hfill.1]
      simp only [Format.cut, FloatType.format, FloatType.fraction] at hfraction ⊢
      omega
    | vaxD =>
      have hkept : Kept f p .ieeeT .vaxD ↔ FloatType.ieeeT.fraction p / 2 ^ 13 = _ :=
        ⟨fun h => h (hcross (by decide)), fun h _ => h⟩
      rw [hkept, show taken (unpack f p .ieeeT).f .vaxD = _ from hfill.2]
      simp only [Format.cut, FloatType.format, FloatType.fraction] at hfraction ⊢
      omega
    | ieeeS =>
      have hkept : Kept f p .ieeeT .ieeeS ↔ FloatType.ieeeT.fraction p / 2 ^ 29 = _ :=
        ⟨fun h => h (hcross (by decide)), fun h _ => h⟩
      rw [hkept, show taken (unpack f p .ieeeT).f .ieeeS = _ from hfill.1]
      simp only [Format.cut, FloatType.format, FloatType.fraction] at hfraction ⊢
      omega
    | ieeeT =>
      refine iff_of_true ?_ (kept_of_same fun h => h rfl)
      have hfour := (IeeT.f4.get p).isLt
      obtain ⟨h1, h2, h3, h4⟩ := exp11_fill11 f (IeeT.f2.get p) (IeeT.f3.get p) (IeeT.f4.get p)
        (IeeT.f1.get p)
      show taken (fill11 f (IeeT.f1.get p) (IeeT.f2.get p) (IeeT.f3.get p) (IeeT.f4.get p)) .ieeeT = _
      rw [taken, h1, h2, h3, h4]
      simp only [Format.cut, FloatType.format, FloatType.fraction]
      omega

/-! ### Numbers -/

/-- A normal number whose truncation to the fraction of `t'` has an exponent there, in terms of the
    exponent field. -/
def Reaches (p : BitVec 64) (t t' : FloatType) : Prop :=
  t'.format.minExp ≤ t.expField p - t.format.bias + t'.format.bias ∧
    t.expField p - t.format.bias + t'.format.bias ≤ t'.format.maxExp

instance (p : BitVec 64) (t t' : FloatType) : Decidable (Reaches p t t') :=
  inferInstanceAs (Decidable (_ ∧ _))

/-- The number of a normal float. -/
def number (t : FloatType) (p : BitVec 64) : ℚ :=
  t.format.normal (t.negative p) (t.expField p) (t.fraction p)

/-- What it is in the other format. -/
def delivered (p : BitVec 64) (t t' : FloatType) : ℚ :=
  t'.format.normal (t.negative p) (t.expField p - t.format.bias + t'.format.bias)
    (t.format.cut t'.format (t.fraction p))

section

variable {f : Frac} {p o : BitVec 64} {t t' : FloatType}

theorem denotes_normal (hp : t.Normal p) : t.denotes p = some (number t p) := if_pos hp

theorem truncates_number_iff {v : ℚ} :
    Lib.Rounding.Truncates 2 (t'.format.fracBits + 1) (number t p) v ↔ v = delivered p t t' :=
  Format.truncates_normal_iff (t.fraction_lt p)

theorem representable_delivered_iff :
    t'.format.Representable (delivered p t t') ↔ Reaches p t t' :=
  Format.representable_normal_iff (t.format.cut_lt t'.format (t.fraction_lt p))

/-- A member of a longword that is zero. -/
theorem get_of_low_zero {w : Nat} (m : Member w) (h : m.start + w ≤ 32) (hp : l1.get p = 0) :
    m.get p = 0 := by
  have hwithin := l1.get_within m h p
  rw [hp, show l1.start = 0 from rfl, Nat.zero_add] at hwithin
  rw [hwithin]
  exact BitVec.extractLsb'_zero

theorem get_of_high_zero {w : Nat} (start : Nat) (h : start + w ≤ 32) (hp : l2.get p = 0) :
    (⟨32 + start⟩ : Member w).get p = 0 := by
  have hwithin := l2.get_within (⟨start⟩ : Member w) h p
  rw [hp] at hwithin
  exact hwithin.trans BitVec.extractLsb'_zero

/-- A float whose longwords are zero. -/
theorem denotes_of_zero (hlow : l1.get p = 0) (hhigh : t = .vaxD ∨ t = .ieeeT → l2.get p = 0) :
    t.denotes p = some 0 := by
  have hfields : t.expField p = 0 ∧ t.negative p = false ∧ t.fraction p = 0 := by
    cases t with
    | vaxF =>
      simp only [FloatType.expField, FloatType.negative, FloatType.fraction,
        get_of_low_zero VaxF.exp (by decide) hlow, get_of_low_zero VaxF.sign (by decide) hlow,
        get_of_low_zero VaxF.f1 (by decide) hlow, get_of_low_zero VaxF.f2 (by decide) hlow]
      decide
    | vaxD =>
      have h3 : VaxD.f3.get p = 0 := get_of_high_zero 0 (by decide) (hhigh (.inl rfl))
      have h4 : VaxD.f4.get p = 0 := get_of_high_zero 16 (by decide) (hhigh (.inl rfl))
      simp only [FloatType.expField, FloatType.negative, FloatType.fraction,
        get_of_low_zero VaxD.exp (by decide) hlow, get_of_low_zero VaxD.sign (by decide) hlow,
        get_of_low_zero VaxD.f1 (by decide) hlow, get_of_low_zero VaxD.f2 (by decide) hlow, h3, h4]
      decide
    | ieeeS =>
      simp only [FloatType.expField, FloatType.negative, FloatType.fraction,
        get_of_low_zero IeeS.exp (by decide) hlow, get_of_low_zero IeeS.sign (by decide) hlow,
        get_of_low_zero IeeS.f1 (by decide) hlow, get_of_low_zero IeeS.f2 (by decide) hlow]
      decide
    | ieeeT =>
      have h1 : IeeT.f1.get p = 0 := get_of_high_zero 16 (by decide) (hhigh (.inr rfl))
      have h2 : IeeT.f2.get p = 0 := get_of_high_zero 0 (by decide) (hhigh (.inr rfl))
      have he : IeeT.exp.get p = 0 := get_of_high_zero 20 (by decide) (hhigh (.inr rfl))
      have hs : IeeT.sign.get p = 0 := get_of_high_zero 31 (by decide) (hhigh (.inr rfl))
      simp only [FloatType.expField, FloatType.negative, FloatType.fraction,
        get_of_low_zero IeeT.f3 (by decide) hlow, get_of_low_zero IeeT.f4 (by decide) hlow, h1, h2,
        he, hs]
      decide
  obtain ⟨hexp, hnegative, hfraction⟩ := hfields
  have hnormal : ¬ t.Normal p := by
    rw [FloatType.Normal, hexp]
    cases t <;> decide
  rw [FloatType.denotes, if_neg hnormal, hexp, hnegative, hfraction, if_neg (by simp),
    if_neg Bool.false_ne_true]
  simp [withSign]

/-- The second switch when zero is to be written. -/
theorem pack_zero (o : BitVec 64) (t' : FloatType) {u : Unpacked} (hzero : u.zero = true) (hnan : u.nan = false) :
    l1.get (pack u o t') = 0 ∧ (t' = .vaxD ∨ t' = .ieeeT → l2.get (pack u o t') = 0) := by
  cases t' with
  | vaxF =>
    rw [pack, if_pos hzero]
    exact ⟨Member.get_set_same (by decide) _ _, by simp⟩
  | vaxD =>
    rw [pack, if_pos hzero]
    refine ⟨Member.get_set_same (by decide) _ _, fun _ => ?_⟩
    simp (disch := decide) only [Member.get_set_apart, Member.get_set_same]
  | ieeeS =>
    rw [pack, if_neg (by rw [hnan]; exact Bool.false_ne_true), if_pos hzero]
    exact ⟨Member.get_set_same (by decide) _ _, by simp⟩
  | ieeeT =>
    rw [pack, if_neg (by rw [hnan]; exact Bool.false_ne_true), if_pos hzero]
    refine ⟨Member.get_set_same (by decide) _ _, fun _ => ?_⟩
    simp (disch := decide) only [Member.get_set_apart, Member.get_set_same]

theorem denotes_pack_zero {u : Unpacked} (hzero : u.zero = true) (hnan : u.nan = false) :
    t'.denotes (pack u o t') = some 0 := by
  obtain ⟨hlow, hhigh⟩ := pack_zero o t' hzero hnan
  exact denotes_of_zero hlow hhigh

/-- The fields of the output where the exponent is an ordinary one that the target has. -/
theorem pack_unpack (f : Frac) (o : BitVec 64) (hp : t.Normal p) (hreaches : Reaches p t t')
    (hordinary : t.Ordinary p) :
    t'.Normal (pack (unpack f p t) o t') ∧
      (t'.expField (pack (unpack f p t) o t') : Int) =
        t.expField p - t.format.bias + t'.format.bias ∧
      t'.negative (pack (unpack f p t) o t') = t.negative p ∧
      t'.fraction (pack (unpack f p t) o t') = taken (unpack f p t).f t' := by
  obtain ⟨hsign, hexp, -, hnan, hzero, -, hroprand⟩ := unpack_spec f hp
  rw [decide_eq_true hordinary, Bool.not_true, Bool.and_false] at hzero hroprand
  obtain ⟨hsign', hexp', hfraction'⟩ := pack_spec hzero hnan hroprand o t'
  have hfield : (t'.expField (pack (unpack f p t) o t') : Int) =
      t.expField p - t.format.bias + t'.format.bias := by
    obtain ⟨hlow, hhigh⟩ := hreaches
    rw [hexp', hexp]
    have hbound : t'.format.minExp ≥ 0 ∧ t'.format.maxExp < 2 ^ t'.expBits := by
      cases t' <;> decide
    rw [show t.expField p - (t.format.bias - 1) + (t'.format.bias - 1) =
      t.expField p - t.format.bias + t'.format.bias by ring]
    exact Int.emod_eq_of_lt (by omega) (by omega)
  refine ⟨?_, hfield, hsign'.trans hsign, hfraction'⟩
  rw [FloatType.Normal, hfield]
  exact hreaches

/-- **Delivery.**  The output is right if the exponent is an ordinary one and the fraction is kept. -/
theorem denotes_pack_iff (hp : t.Normal p) (hreaches : Reaches p t t')
    (hover : (unpack f p t).over_ = false) :
    t'.denotes (pack (unpack f p t) o t') = some (delivered p t t') ↔
      t.Ordinary p ∧ Kept f p t t' := by
  obtain ⟨-, -, -, hnan, hzero, hover', -⟩ := unpack_spec f hp
  rw [hover'] at hover
  by_cases hordinary : t.Ordinary p
  · obtain ⟨hnormal, hfield, hsign', hfraction'⟩ := pack_unpack f o hp hreaches hordinary
    rw [denotes_normal hnormal, number, hfield, hsign', hfraction', Option.some_inj, delivered]
    have hcut := t.format.cut_lt t'.format (t.fraction_lt p)
    rw [← taken_iff_kept]
    constructor
    · intro h
      refine ⟨hordinary, (Format.normal_inj ?_ hcut h).2.2⟩
      rw [← hfraction']
      exact t'.fraction_lt _
    · rintro ⟨-, h⟩
      rw [h]
  · -- the code writes zero for what is not an ordinary exponent of a VAX float
    rw [decide_eq_false hordinary, Bool.not_false, Bool.and_true] at hzero hover
    have hvax : t.vax = true := by simpa using hover
    rw [hvax] at hzero
    rw [denotes_pack_zero hzero hnan, Option.some_inj]
    refine iff_of_false (fun h => ?_) fun h => hordinary h.1
    exact t'.format.normal_ne_zero _ _ _ h.symm

/-! ### `cvt$convert_float` -/

/-- The options are known ones. -/
def ValidOptions (opt : BitVec 32) : Prop := opt &&& ~~~ validOptions = 0

instance (opt : BitVec 32) : Decidable (ValidOptions opt) := inferInstanceAs (Decidable (_ = _))

/-- `x` is the number of a normal float, and truncated to the fraction of `t'` it has an exponent
    there. -/
def Deliverable (p : BitVec 64) (t t' : FloatType) (x : ℚ) : Prop :=
  t.Normal p ∧ ∃ v, Lib.Rounding.Truncates 2 (t'.format.fracBits + 1) x v ∧
    t'.format.Representable v

/-- What is to be said of a conversion of a number that is not zero: it delivers the truncated number,
    or reports that it can not. -/
structure Converts (f : Frac) (p o : BitVec 64) (opt : BitVec 32) (t t' : FloatType) (x : ℚ) :
    Prop where
  delivers : Deliverable p t t' x → (convertFloat f p t.code o t'.code opt).1 = cvtNormal ∧
    ∃ v, t'.denotes (convertFloat f p t.code o t'.code opt).2 = some v ∧
      Lib.Rounding.Truncates 2 (t'.format.fracBits + 1) x v
  reports : ¬ Deliverable p t t' x → (convertFloat f p t.code o t'.code opt).1 ≠ cvtNormal

/-- When it is so. -/
structure ConvertsWhen (f : Frac) (p : BitVec 64) (opt : BitVec 32) (t t' : FloatType) : Prop where
  reached : t.Normal p → Reaches p t t' → ValidOptions opt ∧ t.Ordinary p ∧ Kept f p t t'
  missed : t.Normal p → ¬ Reaches p t t' → ValidOptions opt → t.vax = false ∧ ¬ t.Ordinary p
  denormal : t.vax = false → t.expField p = 0 → t.fraction p ≠ 0 → ¬ ValidOptions opt

@[simp] theorem floatType_code (t : FloatType) : floatType t.code = some t := by
  cases t <;> decide

theorem convertFloat_valid (f : Frac) (p o : BitVec 64) (t t' : FloatType) {opt : BitVec 32}
    (hopt : ValidOptions opt) :
    convertFloat f p t.code o t'.code opt = ((unpack f p t).status, pack (unpack f p t) o t') := by
  simp [convertFloat, show opt &&& ~~~ validOptions = 0 from hopt]

theorem convertFloat_invalid (f : Frac) (p o : BitVec 64) (t t' : FloatType) {opt : BitVec 32}
    (hopt : ¬ ValidOptions opt) :
    (convertFloat f p t.code o t'.code opt).1 ≠ cvtNormal := by
  rw [convertFloat, if_pos (show opt &&& ~~~ validOptions ≠ 0 from hopt)]
  exact (by decide : invOpt ≠ cvtNormal)

theorem status_normal_iff (hp : t.Normal p) :
    (unpack f p t).status = cvtNormal ↔ (unpack f p t).over_ = false := by
  obtain ⟨-, -, hinf, hnan, -⟩ := unpack_spec f hp
  rw [Unpacked.status, hinf, hnan]
  cases (unpack f p t).over_ with
  | false => simp
  | true => simp [overflow, cvtNormal]

theorem over_iff (hp : t.Normal p) :
    (unpack f p t).over_ = false ↔ (t.vax = false → t.Ordinary p) := by
  rw [(unpack_spec f hp).2.2.2.2.2.1]
  cases t.vax <;> simp

theorem deliverable_iff (t' : FloatType) (hp : t.Normal p) : Deliverable p t t' (number t p) ↔ Reaches p t t' := by
  constructor
  · rintro ⟨-, v, htruncates, hrepresentable⟩
    rw [truncates_number_iff.mp htruncates] at hrepresentable
    exact representable_delivered_iff.mp hrepresentable
  · intro h
    exact ⟨hp, _, truncates_number_iff.mpr rfl, representable_delivered_iff.mpr h⟩

/-- A float that stands for a number other than zero is normal, or an IEEE float with the exponent 0. -/
theorem denotes_cases {x : ℚ} (hx : t.denotes p = some x) (hne : x ≠ 0) :
    (t.Normal p ∧ x = number t p) ∨
      (¬ t.Normal p ∧ t.vax = false ∧ t.expField p = 0 ∧ t.fraction p ≠ 0) := by
  by_cases hp : t.Normal p
  · rw [denotes_normal hp, Option.some_inj] at hx
    exact .inl ⟨hp, hx.symm⟩
  · right
    rw [FloatType.denotes, if_neg hp] at hx
    split at hx
    · cases hx
    · rename_i hexp
      rw [not_not] at hexp
      split at hx
      · split at hx
        · cases hx
        · exact absurd (Option.some_inj.mp hx).symm hne
      · rename_i hvax
        refine ⟨hp, by simpa using hvax, hexp, fun hfraction => hne ?_⟩
        rw [← Option.some_inj.mp hx, hfraction]
        simp [withSign]

theorem denotes_denormal (hp : ¬ t.Normal p) (hvax : t.vax = false) (hexp : t.expField p = 0) :
    t.denotes p = some (withSign (t.negative p)
      (Lib.Scaled.scaled 2 (t.fraction p) (1 - t.format.bias - t.format.fracBits))) := by
  rw [FloatType.denotes, if_neg hp, hexp, if_neg (by simp), hvax, if_neg Bool.false_ne_true]

/-- A denormalised float is converted as if it were a normal one. -/
theorem status_denormal (hvax : t.vax = false) (hexp : t.expField p = 0) :
    (unpack f p t).status = cvtNormal := by
  cases t with
  | vaxF => cases hvax
  | vaxD => cases hvax
  | ieeeS =>
    have hne : ∀ c : BitVec 32, IeeS.exp.get c = 255 → (l1.get p == c) = false := by
      intro c hc
      rw [beq_eq_false_iff_ne]
      rintro rfl
      rw [← l1.get_within IeeS.exp (by decide) p] at hc
      have hfield : (IeeS.exp.get p).toNat = 255 := by rw [show IeeS.exp.get p = 255 from hc]; rfl
      simp only [FloatType.expField] at hexp
      omega
    simp only [FloatType.expField] at hexp
    have hinf : (unpack f p .ieeeS).inf = false := by
      simp only [unpack, hne 0x7f800000 (by decide), hne 0xff800000 (by decide), Bool.or_self]
    have hover : (unpack f p .ieeeS).over_ = false ∧ (unpack f p .ieeeS).nan = false := by
      simp only [unpack, hexp]
      decide
    rw [Unpacked.status, hinf, hover.1, hover.2]
    rfl
  | ieeeT =>
    have hne : ∀ c : BitVec 32, (⟨20⟩ : Member 11).get c = 2047 → (l2.get p == c) = false := by
      intro c hc
      rw [beq_eq_false_iff_ne]
      rintro rfl
      rw [← l2.get_within (⟨20⟩ : Member 11) (by decide) p] at hc
      have hfield : (IeeT.exp.get p).toNat = 2047 := by rw [show IeeT.exp.get p = 2047 from hc]; rfl
      simp only [FloatType.expField] at hexp
      omega
    simp only [FloatType.expField] at hexp
    have hinf : (unpack f p .ieeeT).inf = false := by
      simp only [unpack, hne 0x7ff00000 (by decide), hne 0xfff00000 (by decide), Bool.or_self, Bool.false_and]
    have hover : (unpack f p .ieeeT).over_ = false ∧ (unpack f p .ieeeT).nan = false := by
      simp only [unpack, hexp]
      decide
    rw [Unpacked.status, hinf, hover.1, hover.2]
    rfl

/-- A normal number. -/
theorem converts_normal_iff (hp : t.Normal p) {opt : BitVec 32} :
    Converts f p o opt t t' (number t p) ↔
      (Reaches p t t' → ValidOptions opt ∧ t.Ordinary p ∧ Kept f p t t') ∧
        (¬ Reaches p t t' → ValidOptions opt → t.vax = false ∧ ¬ t.Ordinary p) := by
  have hdeliverable := deliverable_iff t' hp
  by_cases hopt : ValidOptions opt
  · have hcall := convertFloat_valid f p o t t' hopt
    constructor
    · intro ⟨hdelivers, hreports⟩
      rw [hcall] at hdelivers hreports
      refine ⟨fun hreaches => ?_, fun hreaches _ => ?_⟩
      · obtain ⟨hstatus, v, hdenotes, hv⟩ := hdelivers (hdeliverable.mpr hreaches)
        rw [truncates_number_iff.mp hv] at hdenotes
        exact ⟨hopt, (denotes_pack_iff hp hreaches ((status_normal_iff hp).mp hstatus)).mp hdenotes⟩
      · have hstatus := hreports fun h => hreaches (hdeliverable.mp h)
        rw [ne_eq, status_normal_iff hp, over_iff hp, Classical.not_imp] at hstatus
        exact hstatus
    · intro ⟨hreached, hmissed⟩
      refine ⟨fun h => ?_, fun h => ?_⟩
      · have hreaches := hdeliverable.mp h
        obtain ⟨-, hordinary, hkept⟩ := hreached hreaches
        have hover := (over_iff (f := f) hp).mpr fun _ => hordinary
        rw [hcall]
        exact ⟨(status_normal_iff hp).mpr hover, _,
          (denotes_pack_iff hp hreaches hover).mpr ⟨hordinary, hkept⟩, truncates_number_iff.mpr rfl⟩
      · rw [hcall, ne_eq, status_normal_iff hp, over_iff hp, Classical.not_imp]
        exact hmissed (fun hreaches => h (hdeliverable.mpr hreaches)) hopt
  · have hcall := convertFloat_invalid f p o t t' hopt
    constructor
    · intro ⟨hdelivers, _⟩
      exact ⟨fun hreaches => absurd (hdelivers (hdeliverable.mpr hreaches)).1 hcall,
        fun _ h => absurd h hopt⟩
    · intro ⟨hreached, _⟩
      exact ⟨fun h => absurd (hreached (hdeliverable.mp h)).1 hopt, fun _ => hcall⟩

/-- A denormalised number. -/
theorem converts_denormal_iff (hp : ¬ t.Normal p) (hvax : t.vax = false) (hexp : t.expField p = 0)
    {opt : BitVec 32} {x : ℚ} : Converts f p o opt t t' x ↔ ¬ ValidOptions opt := by
  have hdeliverable : ¬ Deliverable p t t' x := fun h => hp h.1
  constructor
  · intro h hopt
    refine h.reports hdeliverable ?_
    rw [convertFloat_valid f p o t t' hopt]
    exact status_denormal hvax hexp
  · intro hopt
    exact ⟨fun h => absurd h hdeliverable, fun _ => convertFloat_invalid f p o t t' hopt⟩

/-- **One conversion.** -/
theorem converts_iff (f : Frac) (p o : BitVec 64) (opt : BitVec 32) (t t' : FloatType) :
    (∀ x, t.denotes p = some x → x ≠ 0 → Converts f p o opt t t' x) ↔ ConvertsWhen f p opt t t' := by
  constructor
  · intro h
    have hnormal : ∀ hp : t.Normal p, Converts f p o opt t t' (number t p) := fun hp =>
      h _ (denotes_normal hp) (Format.normal_ne_zero _ _ _ _)
    refine ⟨fun hp => ((converts_normal_iff hp).mp (hnormal hp)).1,
      fun hp => ((converts_normal_iff hp).mp (hnormal hp)).2, fun hvax hexp hfraction => ?_⟩
    have hp : ¬ t.Normal p := by
      rw [FloatType.Normal, hexp]
      cases t <;> decide
    refine (converts_denormal_iff hp hvax hexp).mp (h _ (denotes_denormal hp hvax hexp) ?_)
    rw [← abs_pos, abs_withSign, abs_pos, ne_eq, Lib.Scaled.scaled_eq_zero_iff (by decide)]
    exact_mod_cast hfraction
  · intro h x hx hne
    rcases denotes_cases hx hne with ⟨hp, rfl⟩ | ⟨hp, hvax, hexp, hfraction⟩
    · exact (converts_normal_iff hp).mpr ⟨h.reached hp, h.missed hp⟩
    · exact (converts_denormal_iff hp hvax hexp).mpr (h.denormal hvax hexp hfraction)

end

end FreeVMS.Rtl.Cvt
