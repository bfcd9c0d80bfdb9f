import FreeVMS.Rtl.ConvertRight

/-!
# Conversions there and back

A VAX float converted into an IEEE float and back again.
-/

namespace FreeVMS.Rtl.Cvt

open Lib.BitField Lib.BinaryFloat

section

variable {f f' : Frac} {p o o' : BitVec 64} {t t' : FloatType}

/-- Zero in an IEEE float is seen as such. -/
theorem unpack_of_zero (f : Frac) (hvax : t'.vax = false) (hlow : l1.get p = 0)
    (hhigh : t' = .ieeeT → l2.get p = 0) :
    (unpack f p t').zero = true ∧ (unpack f p t').nan = false := by
  cases t' with
  | vaxF => cases hvax
  | vaxD => cases hvax
  | ieeeS =>
    have hexp : IeeS.exp.get p = 0 := get_of_low_zero IeeS.exp (by decide) hlow
    simp only [unpack, hlow, hexp]
    decide
  | ieeeT =>
    have hhigh := hhigh rfl
    have hexp : IeeT.exp.get p = 0 := get_of_high_zero 20 (by decide) hhigh
    simp only [unpack, hlow, hhigh, hexp]
    decide

/-- What there is to a number of a VAX float that was truncated to the fraction of an IEEE float. -/
theorem delivered_eq (p : BitVec 64) (hvax : t.vax = true) (hvax' : t'.vax = false) :
    delivered p t t' = t.format.normal (t.negative p) (t.expField p)
      (t'.format.cut t.format (t.format.cut t'.format (t.fraction p))) := by
  rw [delivered, Format.normal_of_cut (G := t.format)]
  · congr 1
    ring
  · rw [Format.cut]
    cases t <;> cases t' <;> cases hvax <;> cases hvax' <;> simp only [FloatType.format] <;> omega

/-- The exponent of what is converted is an ordinary one there, too. -/
theorem ordinary_pack (f : Frac) (o : BitVec 64) (hp : t.Normal p) (hreaches : Reaches p t t')
    (hvax : t.vax = true) (hvax' : t'.vax = false) (hordinary : t.Ordinary p) :
    t'.Ordinary (pack (unpack f p t) o t') := by
  obtain ⟨-, hfield, -, -⟩ := pack_unpack f o hp hreaches hordinary
  rw [FloatType.Ordinary] at hordinary ⊢
  zify at hordinary ⊢
  rw [hfield]
  cases t <;> cases t' <;> cases hvax <;> cases hvax' <;>
    simp only [FloatType.expBits, FloatType.format] at hordinary ⊢ <;> omega

/-- **There and back.**  The two conversions of a number that the other format has an exponent for. -/
theorem denotes_back_iff (f f' : Frac) (o o' : BitVec 64) (hp : t.Normal p)
    (hreaches : Reaches p t t') (hvax : t.vax = true) (hvax' : t'.vax = false) :
    t.denotes (pack (unpack f' (pack (unpack f p t) o t') t') o' t) = some (delivered p t t') ↔
      t.Ordinary p ∧ taken (unpack f' (pack (unpack f p t) o t') t').f t =
        t'.format.cut t.format (t.format.cut t'.format (t.fraction p)) := by
  obtain ⟨-, -, -, hnan, hzero, -, -⟩ := unpack_spec f hp
  by_cases hordinary : t.Ordinary p
  · obtain ⟨hnormal, hfield, hnegative, -⟩ := pack_unpack f o hp hreaches hordinary
    have hback : Reaches (pack (unpack f p t) o t') t' t := by
      rw [Reaches, hfield]
      obtain ⟨hmin, hmax⟩ := hp
      constructor
      · omega
      · omega
    have hordinary' := ordinary_pack f o hp hreaches hvax hvax' hordinary
    obtain ⟨hnormal', hfield', hnegative', hfraction'⟩ :=
      pack_unpack f' o' hnormal hback hordinary'
    have hcut := t'.format.cut_lt t.format (t.format.cut_lt t'.format (t.fraction_lt p))
    rw [denotes_normal hnormal', number, hfield', hfield, hnegative', hnegative, hfraction',
      delivered_eq p hvax hvax', Option.some_inj]
    constructor
    · intro h
      refine ⟨hordinary, (Format.normal_inj ?_ hcut h).2.2⟩
      rw [← hfraction']
      exact t.fraction_lt _
    · rintro ⟨-, h⟩
      rw [h]
      congr 1
      ring
  · -- zero there, and zero back
    rw [hvax, decide_eq_false hordinary] at hzero
    obtain ⟨hlow, hhigh⟩ := pack_zero o t' hzero hnan
    obtain ⟨hzero', hnan'⟩ := unpack_of_zero f' hvax' hlow fun h => hhigh (.inr h)
    rw [denotes_pack_zero hzero' hnan', Option.some_inj]
    refine iff_of_false (fun h => ?_) fun h => hordinary h.1
    exact t'.format.normal_ne_zero _ _ _ h.symm

/-! ### The three trips -/

/-- What is to be said of the trip: a number that the other format has an exponent for comes back as it
    was, up to the fraction of that format. -/
def RoundTrips (f f' : Frac) (p o o' : BitVec 64) (opt opt' : BitVec 32) (t t' : FloatType) : Prop :=
  Deliverable p t t' (number t p) →
    (convertFloat f p t.code o t'.code opt).1 = cvtNormal ∧
      (convertFloat f' (convertFloat f p t.code o t'.code opt).2 t'.code o' t.code opt').1 =
        cvtNormal ∧
      ∃ v, t.denotes
        (convertFloat f' (convertFloat f p t.code o t'.code opt).2 t'.code o' t.code opt').2 = some v ∧
        Lib.Rounding.Truncates 2 (t'.format.fracBits + 1) (number t p) v

theorem roundTrips_iff {opt opt' : BitVec 32} (hvax : t.vax = true) (hvax' : t'.vax = false) :
    RoundTrips f f' p o o' opt opt' t t' ↔
      (t.Normal p → Reaches p t t' → ValidOptions opt ∧ ValidOptions opt' ∧ t.Ordinary p ∧
        taken (unpack f' (pack (unpack f p t) o t') t').f t =
          t'.format.cut t.format (t.format.cut t'.format (t.fraction p))) := by
  constructor
  · intro h hp hreaches
    obtain ⟨hthere, hback, v, hdenotes, hv⟩ := h ((deliverable_iff t' hp).mpr hreaches)
    have hopt : ValidOptions opt := by
      by_contra hopt
      exact convertFloat_invalid f p o t t' hopt hthere
    have hopt' : ValidOptions opt' := by
      by_contra hopt'
      exact convertFloat_invalid f' _ o' t' t hopt' hback
    rw [convertFloat_valid f p o t t' hopt, convertFloat_valid f' _ o' t' t hopt', truncates_number_iff.mp hv] at hdenotes
    exact ⟨hopt, hopt', (denotes_back_iff f f' o o' hp hreaches hvax hvax').mp hdenotes⟩
  · intro h hdeliverable
    have hp := hdeliverable.1
    have hreaches := (deliverable_iff t' hp).mp hdeliverable
    obtain ⟨hopt, hopt', hordinary, hfraction⟩ := h hp hreaches
    obtain ⟨hnormal, -, -, -⟩ := pack_unpack f o hp hreaches hordinary
    have hordinary' := ordinary_pack f o hp hreaches hvax hvax' hordinary
    rw [convertFloat_valid f p o t t' hopt, convertFloat_valid f' _ o' t' t hopt']
    refine ⟨?_, ?_, _, (denotes_back_iff f f' o o' hp hreaches hvax hvax').mpr ⟨hordinary, hfraction⟩,
      truncates_number_iff.mpr rfl⟩
    · exact (status_normal_iff hp).mpr ((over_iff hp).mpr fun _ => hordinary)
    · exact (status_normal_iff hnormal).mpr ((over_iff hnormal).mpr fun _ => hordinary')

/-- The fraction that comes back from an S float. -/
theorem back_from_ieeeS (hp : t.Normal p) (hreaches : Reaches p t .ieeeS)
    (hordinary : t.Ordinary p) (ht : t.expBits = 8) :
    taken (unpack f' (pack (unpack f p t) o .ieeeS) .ieeeS).f t =
      FloatType.ieeeS.format.cut t.format (t.format.cut FloatType.ieeeS.format (t.fraction p)) := by
  obtain ⟨-, -, -, hfraction⟩ := pack_unpack f o hp hreaches hordinary
  rw [(taken_iff_kept f' _ .ieeeS t).mpr (kept_of_same fun h => h ht.symm), hfraction,
    (taken_iff_kept f p t .ieeeS).mpr (kept_of_same fun h => h ht)]

/-- The fraction that comes back from a T float has lost its first three bits to what was in the union
    before. -/
theorem back_from_ieeeT (hp : t.Normal p) (hreaches : Reaches p t .ieeeT)
    (hordinary : t.Ordinary p) (hvax : t.vax = true) :
    taken (unpack f' (pack (unpack f p t) o .ieeeT) .ieeeT).f t =
        FloatType.ieeeT.format.cut t.format (t.format.cut FloatType.ieeeT.format (t.fraction p)) ↔
      upper f' = t.fraction p / 2 ^ (t.format.fracBits - 3) := by
  obtain ⟨-, -, -, hfraction⟩ := pack_unpack f o hp hreaches hordinary
  have hback := taken_fill11 f' (IeeT.f2.get (pack (unpack f p t) o .ieeeT))
    (IeeT.f3.get (pack (unpack f p t) o .ieeeT)) (IeeT.f4.get (pack (unpack f p t) o .ieeeT))
    (IeeT.f1.get (pack (unpack f p t) o .ieeeT)) hfraction.symm
  have hpadding := padding_lt f
  have hupper := upper_lt f'
  have hlt := t.fraction_lt p
  cases t with
  | vaxF =>
    have hthere := taken_fill8 f (VaxF.f2.get p) 0 0 (VaxF.f1.get p)
      (show FloatType.vaxF.fraction p * 2 ^ 32 = _ by
        simp only [FloatType.fraction, BitVec.ofNat_eq_ofNat, BitVec.toNat_ofNat, Nat.zero_mod]
        omega)
    rw [show taken (unpack f' _ .ieeeT).f .vaxF = _ from hback.1,
      show taken (unpack f p .vaxF).f .ieeeT = _ from hthere]
    simp only [Format.cut, FloatType.format] at hlt ⊢
    omega
  | vaxD =>
    have hthere := taken_fill8 f (VaxD.f2.get p) (VaxD.f3.get p) (VaxD.f4.get p) (VaxD.f1.get p)
      (show FloatType.vaxD.fraction p = _ from rfl)
    rw [show taken (unpack f' _ .ieeeT).f .vaxD = _ from hback.2,
      show taken (unpack f p .vaxD).f .ieeeT = _ from hthere]
    simp only [Format.cut, FloatType.format] at hlt ⊢
    omega
  | ieeeS => cases hvax
  | ieeeT => cases hvax

end

/-- **`cvt$convert_float`.**  Each conversion, and the trips of F floats to S and T and of D floats to T
    and back. -/
theorem convert_float_right_iff (f f' : Frac) (p o o' : BitVec 64) (opt opt' : BitVec 32) :
    (∀ t t' : FloatType, (∀ x, t.denotes p = some x → x ≠ 0 → Converts f p o opt t t' x) ↔
      ConvertsWhen f p opt t t') ∧
    (RoundTrips f f' p o o' opt opt' .vaxF .ieeeS ↔
      (FloatType.vaxF.Normal p → Reaches p .vaxF .ieeeS →
        ValidOptions opt ∧ ValidOptions opt' ∧ FloatType.vaxF.Ordinary p)) ∧
    (RoundTrips f f' p o o' opt opt' .vaxF .ieeeT ↔
      (FloatType.vaxF.Normal p → ValidOptions opt ∧ ValidOptions opt' ∧ FloatType.vaxF.Ordinary p ∧
        upper f' = FloatType.vaxF.fraction p / 2 ^ 20)) ∧
    (RoundTrips f f' p o o' opt opt' .vaxD .ieeeT ↔
      (FloatType.vaxD.Normal p → ValidOptions opt ∧ ValidOptions opt' ∧ FloatType.vaxD.Ordinary p ∧
        upper f' = FloatType.vaxD.fraction p / 2 ^ 52)) := by
  have hreaches : ∀ t : FloatType, t.vax = true → t.Normal p → Reaches p t .ieeeT := by
    rintro t hvax ⟨hmin, hmax⟩
    cases t <;> cases hvax <;> simp only [Reaches, FloatType.format] at hmin hmax ⊢ <;> omega
  refine ⟨fun t t' => converts_iff f p o opt t t', ?_, ?_, ?_⟩
  · rw [roundTrips_iff rfl rfl]
    refine forall₂_congr fun hp hreach => ?_
    constructor
    · rintro ⟨hopt, hopt', hordinary, -⟩
      exact ⟨hopt, hopt', hordinary⟩
    · rintro ⟨hopt, hopt', hordinary⟩
      exact ⟨hopt, hopt', hordinary, back_from_ieeeS hp hreach hordinary rfl⟩
  · rw [roundTrips_iff rfl rfl]
    refine forall_congr' fun hp => ?_
    rw [forall_prop_of_true (hreaches _ rfl hp)]
    refine and_congr_right fun _ => and_congr_right fun _ => and_congr_right fun hordinary => ?_
    exact back_from_ieeeT hp (hreaches _ rfl hp) hordinary rfl
  · rw [roundTrips_iff rfl rfl]
    refine forall_congr' fun hp => ?_
    rw [forall_prop_of_true (hreaches _ rfl hp)]
    refine and_congr_right fun _ => and_congr_right fun _ => and_congr_right fun hordinary => ?_
    exact back_from_ieeeT hp (hreaches _ rfl hp) hordinary rfl

/-- The F float 1.5, whose first fraction bit does not arrive in the T float: 1.0 comes out. -/
theorem one_and_a_half_cut :
    convertFloat 0 0x40c0 FloatType.vaxF.code 0 FloatType.ieeeT.code 0 =
        (cvtNormal, 0x3ff0000000000000) ∧
      ¬ ∀ (f : Frac) (p o : BitVec 64) (opt : BitVec 32), ValidOptions opt →
        ∀ (t t' : FloatType) (x : ℚ), t.denotes p = some x → x ≠ 0 → Converts f p o opt t t' x := by
  refine ⟨by decide +kernel, fun h => ?_⟩
  have hwhen := (converts_iff 0 0x40c0 0 0 .vaxF .ieeeT).mp fun x =>
    h 0 0x40c0 0 0 (by decide) .vaxF .ieeeT x
  obtain ⟨-, -, hkept⟩ := hwhen.reached (by decide) (by decide)
  exact absurd (hkept (by decide)) (by decide)

end FreeVMS.Rtl.Cvt
