import FreeVMS.Rtl.DecimalTrims
import FreeVMS.Rtl.DivisionEnd

/-!
# The two comparisons

`lib$$ncompare` compares two texts as they are, `str$$ncompare` takes the leading zeros from two
dynamic strings first. Both go by the lengths and then by the digits, so that the second gives the
order of the numbers and the first does only where a longer text is a larger number.
-/

namespace FreeVMS.Rtl.Num

open Lib.Digits Str
open Run (Ends)

/-! ## `str$$ncompare` in memory -/

/-- What `str$$ncompare` returns, and its operands behind it. -/
structure Compared where
  order : Ordering
  sd1 : Descriptor
  sd2 : Descriptor
  store : Store

/-- `str$$ncompare`. It does not look at the statuses of the trims. -/
def strNcompare (place : Store → Nat → Nat) (sd1 sd2 : Descriptor) (σ : Store) :
    Except Str.Fault Compared := do
  let first ← strLzerotrim place sd1 σ
  let second ← strLzerotrim place sd2 first.store
  let m := second.store.memory
  let (s1Len, s1Ptr) ← strAnalyzeSdesc m first.destination
  let (s2Len, s2Ptr) ← strAnalyzeSdesc m second.destination
  return ⟨compareText (bytesAt m s1Ptr s1Len.toNat) (bytesAt m s2Ptr s2Len.toNat),
    first.destination, second.destination, second.store⟩

/-- The strings that a call on the blocks `p` and `q` leaves, each with a block of its own. Nothing
    else has changed. -/
structure LeavesBoth (static : Nat → Prop) (σ : Store) (p q : Nat) (s t : List Byte) (r : Compared) :
    Prop where
  tidy : Tidy static r.store
  first : Dynamic r.store r.sd1 s
  second : Dynamic r.store r.sd2 t
  frame : Frame static σ [p, q] r.store [r.sd1.aPointer, r.sd2.aPointer]
  apart : Distinct r.sd1.aPointer r.sd2.aPointer

section

variable {place : Store → Nat → Nat} {static : Nat → Prop} {σ : Store} {sd1 sd2 : Descriptor}
  {s t : List Byte}

/-- In memory the comparison is the one of lists. -/
theorem strNcompare_spec (ha : Allocates place static) (hσ : Tidy static σ) (h1 : Dynamic σ sd1 s)
    (h2 : Dynamic σ sd2 t) (hapart : Distinct sd1.aPointer sd2.aPointer) (hs : s ≠ []) (ht : t ≠ []) :
    Ends (OutOfMemory place)
      (fun r => ncompareTrim s t = .ok (lzerotrim s, lzerotrim t, r.order) ∧
        LeavesBoth static σ sd1.aPointer sd2.aPointer (lzerotrim s) (lzerotrim t) r)
      (strNcompare place sd1 sd2 σ) := by
  have hne : ¬ (s = [] ∨ t = []) := not_or.mpr ⟨hs, ht⟩
  rw [strNcompare]
  apply Ends.bind (strLzerotrim_gives ha hσ h1 hs)
  rintro first ⟨-, hfirst⟩
  obtain ⟨h2', hapart2⟩ := h2.frame hapart.symm hfirst.frame
  apply Ends.bind (strLzerotrim_gives ha hfirst.tidy h2' ht)
  rintro second ⟨-, hsecond⟩
  -- the first string has stayed while the second was trimmed
  obtain ⟨h1', hapart1⟩ := hfirst.dynamic.frame hapart2.symm hsecond.frame
  simp only [h1'.analyzed, hsecond.dynamic.analyzed, ok_bind, h1'.length, hsecond.dynamic.length,
    h1'.bytes, hsecond.dynamic.bytes]
  refine .ok ⟨?_, hsecond.tidy, h1', hsecond.dynamic, ?_, hapart1⟩
  · rw [ncompareTrim, if_neg hne]
  · have htrim1 := hfirst.frame.append [sd2.aPointer]
    have htrim2 := hsecond.frame.append [first.destination.aPointer]
    exact htrim1.trans (htrim2.weaken (by simp) (by simp))

end

/-! ## `lib$$ncompare` -/

/-- A pointer to the text `s` with its NUL. -/
structure PointsTo (a : Cells) (s : List Byte) : Prop where
  bytes : ∀ i, i < s.length → a i = s.getD i 0
  nul : a s.length = 0

theorem PointsTo.text {a : Cells} {s : List Byte} (h : PointsTo a s) (hs : Plain s) :
    Num.text a 0 maxstr = s := by
  have hlen := hs.length
  apply text_eq (by rw [maxstr]; omega)
  · intro i hi
    rw [Nat.zero_add, h.bytes i hi]
    refine ⟨rfl, fun hnul => not_isDigit_nul ?_⟩
    rw [← hnul]
    exact load_isDigit hs.digits hi
  · rw [Nat.zero_add]
    exact h.nul

/-- The digits by which `s` is longer than `t` are not all zeros, or what follows them is a larger
    number than `t`. -/
def Outgrows (s t : List Byte) : Prop :=
  (∃ c ∈ s.take (s.length - t.length), c ≠ zero) ∨ number t < number (s.drop (s.length - t.length))

instance (s t : List Byte) : Decidable (Outgrows s t) := inferInstanceAs (Decidable (_ ∨ _))

/-- Where one text is longer than the other, it outgrows it. -/
def LongerIsMore (s t : List Byte) : Prop :=
  (t.length < s.length → Outgrows s t) ∧ (s.length < t.length → Outgrows t s)

instance (s t : List Byte) : Decidable (LongerIsMore s t) := inferInstanceAs (Decidable (_ ∧ _))

section

variable {s t : List Byte}

theorem outgrows_iff (hs : Digits s) (ht : Digits t) (hlen : t.length ≤ s.length) :
    Outgrows s t ↔ number t < number s := by
  have hsplit := List.take_append_drop (s.length - t.length) s
  have hrest : (s.drop (s.length - t.length)).length = t.length := by
    rw [List.length_drop]
    omega
  have hdigits := hs
  have hnumber := congrArg number hsplit
  rw [← hsplit, digits_append] at hdigits
  rw [number_append, hrest] at hnumber
  have hlt := number_lt ht
  have hzeros := number_eq_zero_iff hdigits.1
  rw [Outgrows, ← hnumber]
  by_cases hzero : number (s.take (s.length - t.length)) = 0
  · have hall := hzeros.mp hzero
    rw [hzero, Nat.zero_mul, Nat.zero_add]
    refine or_iff_right ?_
    rintro ⟨c, hc, hne⟩
    exact hne (hall c hc)
  · have hsome : ∃ c ∈ s.take (s.length - t.length), c ≠ zero := by
      by_contra hnone
      push Not at hnone
      exact hzero (hzeros.mpr hnone)
    have hmul := Nat.le_mul_of_pos_left (10 ^ t.length) (Nat.pos_of_ne_zero hzero)
    exact iff_of_true (Or.inl hsome) (by omega)

/-- Without zeros in front a longer text is more. -/
theorem longerIsMore_of_trimmed (hs : Plain s) (ht : Plain t) (hst : Trimmed s) (htt : Trimmed t) :
    LongerIsMore s t := by
  constructor
  · intro hlt
    rw [outgrows_iff hs.digits ht.digits (Nat.le_of_lt hlt)]
    exact number_lt_of_length ht hs hst hlt
  · intro hlt
    rw [outgrows_iff ht.digits hs.digits (Nat.le_of_lt hlt)]
    exact number_lt_of_length hs ht htt hlt

/-- **Exactly when `lib$$ncompare` gives the order of the numbers.** -/
theorem ncompare_right_iff {a b : Cells} (hs : Plain s) (ht : Plain t) (ha : PointsTo a s)
    (hb : PointsTo b t) : ncompare a b = compare (number s) (number t) ↔ LongerIsMore s t := by
  rw [ncompare, ha.text hs, hb.text ht, compareText_right_iff hs ht, LongerIsMore]
  apply and_congr
  · exact forall_congr' fun hlt => (outgrows_iff hs.digits ht.digits (Nat.le_of_lt hlt)).symm
  · exact forall_congr' fun hlt => (outgrows_iff ht.digits hs.digits (Nat.le_of_lt hlt)).symm

end

/-! ## Both -/

/-- The `int` that stands for an order. -/
def returned : Ordering → Int
  | .lt => -1
  | .eq => 0
  | .gt => 1

theorem returned_inj {o o' : Ordering} : returned o = returned o' ↔ o = o' := by
  cases o <;> cases o' <;> decide

theorem returned_compare (m n : Nat) : returned (compare m n) = ((m : Int) - n).sign := by
  rcases Nat.lt_trichotomy m n with hlt | rfl | hgt
  · rw [Nat.compare_eq_lt.mpr hlt, Int.sign_eq_neg_one_of_neg (by omega)]
    rfl
  · rw [Nat.compare_eq_eq.mpr rfl, Int.sub_self]
    rfl
  · rw [Nat.compare_eq_gt.mpr hgt, Int.sign_eq_one_of_pos (by omega)]
    rfl

/-- Two digit strings as the comparisons get them: texts for the one, dynamic strings with blocks of
    their own for the other. -/
structure Operands (static : Nat → Prop) (σ : Store) (sd1 sd2 : Descriptor) (a b : Cells)
    (s t : List Byte) : Prop where
  nonempty1 : s ≠ []
  nonempty2 : t ≠ []
  digits1 : Digits s
  digits2 : Digits t
  text1 : PointsTo a s
  text2 : PointsTo b t
  tidy : Tidy static σ
  first : Dynamic σ sd1 s
  second : Dynamic σ sd2 t
  apart : Distinct sd1.aPointer sd2.aPointer

/-- A dynamic string of digits for the number `n`. -/
def Denotes (σ : Store) (d : Descriptor) (n : Nat) : Prop :=
  ∃ s, Dynamic σ d s ∧ s ≠ [] ∧ Digits s ∧ number s = n

/-- Both comparisons of `s` and `t` return the sign of the difference, and the descriptors of
    `str$$ncompare` stand for the numbers they stood for. -/
structure ComparatorsRight (place : Store → Nat → Nat) (σ : Store) (sd1 sd2 : Descriptor)
    (a b : Cells) (s t : List Byte) : Prop where
  lib : returned (ncompare a b) = ((number s : Int) - number t).sign
  str : Ends (OutOfMemory place)
    (fun r => returned r.order = ((number s : Int) - number t).sign ∧
      Denotes r.store r.sd1 (number s) ∧ Denotes r.store r.sd2 (number t))
    (strNcompare place sd1 sd2 σ)

section

variable {place : Store → Nat → Nat} {static : Nat → Prop} {σ : Store} {sd1 sd2 : Descriptor}
  {a b : Cells} {s t : List Byte}

theorem Operands.plain1 (h : Operands static σ sd1 sd2 a b s t) : Plain s :=
  ⟨h.nonempty1, h.digits1, Nat.le_of_lt_succ h.first.lt⟩

theorem Operands.plain2 (h : Operands static σ sd1 sd2 a b s t) : Plain t :=
  ⟨h.nonempty2, h.digits2, Nat.le_of_lt_succ h.second.lt⟩

theorem denotes_trimmed {d : Descriptor} (hs : Plain s) (hd : Dynamic σ d (lzerotrim s)) :
    Denotes σ d (number s) := by
  obtain ⟨htrim, -, hnumber, -⟩ := trim_plain hs
  exact ⟨lzerotrim s, hd, htrim.nonempty, htrim.digits, hnumber⟩

/-- `str$$ncompare` is always right. -/
theorem strNcompare_right (ha : Allocates place static) (h : Operands static σ sd1 sd2 a b s t) :
    Ends (OutOfMemory place)
      (fun r => returned r.order = ((number s : Int) - number t).sign ∧
        Denotes r.store r.sd1 (number s) ∧ Denotes r.store r.sd2 (number t))
      (strNcompare place sd1 sd2 σ) := by
  apply Ends.mono (strNcompare_spec ha h.tidy h.first h.second h.apart h.nonempty1 h.nonempty2)
  rintro r ⟨horder, hleaves⟩
  rw [ncompareTrim_eq h.plain1 h.plain2] at horder
  have horder : compare (number s) (number t) = r.order := by
    simpa using horder
  refine ⟨?_, denotes_trimmed h.plain1 hleaves.first, denotes_trimmed h.plain2 hleaves.second⟩
  rw [← horder, returned_compare]

/-- **Both are right exactly where a longer text is more.** -/
theorem comparators_right_iff (ha : Allocates place static)
    (h : Operands static σ sd1 sd2 a b s t) :
    ComparatorsRight place σ sd1 sd2 a b s t ↔ LongerIsMore s t := by
  rw [← ncompare_right_iff h.plain1 h.plain2 h.text1 h.text2, ← returned_inj, returned_compare]
  constructor
  · exact ComparatorsRight.lib
  · intro hlib
    exact ⟨hlib, strNcompare_right ha h⟩

end

/-! ## Two strings in the heap -/

/-- `s` in a block at 10000, `t` in one at 10100. -/
def pairStore (s t : List Byte) : Store :=
  ⟨fun a => if a < 10100 then s.getD (a - 10000) 0 else t.getD (a - 10100) 0,
    [⟨10000, s.length⟩, ⟨10100, t.length⟩]⟩

def pairString (s : List Byte) (p : Nat) : Descriptor := ⟨BitVec.ofNat 16 s.length, .d, p⟩

section

variable {s t : List Byte}

theorem pairStore_tidy (hs : s.length < 100) (t : List Byte) : Tidy (· < 10000) (pairStore s t) := by
  have hapart : Block.Apart ⟨10000, s.length⟩ ⟨10100, t.length⟩ := by
    refine ⟨Nat.ne_of_lt (Nat.lt_add_of_pos_right (by decide : 0 < 100)), ?_⟩
    rintro a ⟨-, ha⟩ ⟨ha', -⟩
    have ha : a < 10000 + s.length := ha
    have ha' : 10100 ≤ a := ha'
    omega
  constructor
  · simp [pairStore]
  · simp [pairStore, hapart, hapart.symm]
  · intro b hb a ha hstatic
    have hfrom := ha.1
    rcases List.mem_pair.mp hb with rfl | rfl <;> simp only at hfrom <;> omega

theorem pairString_dynamic {σ : Store} {p : Nat} (hs : s.length < 100) (hp : p ≠ 0)
    (hblock : ⟨p, s.length⟩ ∈ σ.blocks) (hm : ∀ i, i < s.length → σ.memory (p + i) = s.getD i 0) :
    Dynamic σ (pairString s p) s := by
  have hlength : (BitVec.ofNat 16 s.length).toNat = s.length := by
    rw [BitVec.toNat_ofNat, Nat.mod_eq_of_lt (by omega)]
  refine ⟨rfl, hlength, ?_, Or.inr ⟨hp, s.length, hblock, Nat.le_refl _⟩⟩
  rw [bytesAt_eq_iff]
  refine ⟨rfl, fun i hi => (hm i hi).trans ?_⟩
  simp [hi]

theorem pair_operands (hs : s ≠ []) (hsdigits : Digits s) (hslen : s.length < 100) (ht : t ≠ [])
    (htdigits : Digits t) (htlen : t.length < 100) :
    Operands (· < 10000) (pairStore s t) (pairString s 10000) (pairString t 10100) (load s) (load t)
      s t := by
  have hload : ∀ u : List Byte, PointsTo (load u) u :=
    fun u => ⟨fun _ _ => rfl, load_of_le (Nat.le_refl _)⟩
  refine ⟨hs, ht, hsdigits, htdigits, hload s, hload t, pairStore_tidy hslen t, ?_, ?_, ?_⟩
  · refine pairString_dynamic hslen (Nat.succ_ne_zero _) (by simp [pairStore]) fun i hi => ?_
    simp only [pairStore]
    rw [if_pos (by omega), Nat.add_sub_cancel_left]
  · refine pairString_dynamic htlen (Nat.succ_ne_zero _) (by simp [pairStore]) fun i hi => ?_
    simp only [pairStore]
    rw [if_neg (by omega), Nat.add_sub_cancel_left]
  · exact Or.inr (by simp [pairString])

end

/-- 12 written with a zero in front, and 7. -/
theorem twelve_above_seven :
    ComparatorsRight (above 10000) (pairStore [48, 49, 50] [55]) (pairString [48, 49, 50] 10000)
      (pairString [55] 10100) (load [48, 49, 50]) (load [55]) [48, 49, 50] [55] :=
  (comparators_right_iff (above_allocates 10000)
    (pair_operands (List.cons_ne_nil _ _) (by decide) (by decide) (List.cons_ne_nil _ _) (by decide)
      (by decide))).mpr (by decide)

/-- `lib$$ncompare` has 7 with two zeros in front above 12. -/
theorem padded_seven_above_twelve :
    Operands (· < 10000) (pairStore [48, 48, 55] [49, 50]) (pairString [48, 48, 55] 10000)
        (pairString [49, 50] 10100) (load [48, 48, 55]) (load [49, 50]) [48, 48, 55] [49, 50] ∧
      ¬ ComparatorsRight (above 10000) (pairStore [48, 48, 55] [49, 50])
        (pairString [48, 48, 55] 10000) (pairString [49, 50] 10100) (load [48, 48, 55])
        (load [49, 50]) [48, 48, 55] [49, 50] := by
  have hoperands := pair_operands (s := [48, 48, 55]) (t := [49, 50]) (List.cons_ne_nil _ _) (by decide)
    (by decide) (List.cons_ne_nil _ _) (by decide) (by decide)
  refine ⟨hoperands, fun hright => ?_⟩
  have hlib := hright.lib
  rw [← returned_compare, returned_inj,
    ncompare_right_iff hoperands.plain1 hoperands.plain2 hoperands.text1 hoperands.text2] at hlib
  exact absurd hlib (by decide)

end FreeVMS.Rtl.Num
