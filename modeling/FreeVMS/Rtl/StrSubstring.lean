import FreeVMS.Rtl.StrStrings

/-!
# Substrings

The four routines that take a part of a string, with a dynamic destination. Each of them copies so
many bytes from some place behind the beginning of the source on. What is promised of a string is
promised in every world that has the string in it: so nothing else may play a part, and a byte
outside of the string does as soon as it is copied.
-/

namespace FreeVMS.Rtl.Str

open Run (Ends)

variable {place : Store → Nat → Nat} {static : Nat → Prop} {σ : Store} {d source : Descriptor}
  {s t e : List Byte} {p q o k : Nat}

/-- A call that leaves the string `s`, with any status, unless there is no space. -/
def Yields (place : Store → Nat → Nat) (static : Nat → Prop) (σ : Store) (q : Nat) (s : List Byte)
    (call : Except Fault Outcome) : Prop :=
  Ends (OutOfMemory place) (Leaves static σ q s) call

/-- A dynamic destination, and a source elsewhere that is the string `s` at `p`. -/
structure World (place : Store → Nat → Nat) (static : Nat → Prop) (σ : Store)
    (d source : Descriptor) (p : Nat) (s : List Byte) : Prop where
  allocates : Allocates place static
  tidy : Tidy static σ
  destination : ∃ t, Dynamic σ d t
  source : Source static σ [d.aPointer] source p s

/-- What a routine leaves of the source `s` is `e` in every world. -/
def Extracts (routine : (Store → Nat → Nat) → Descriptor → Descriptor → Store → Except Fault Outcome)
    (s e : List Byte) : Prop :=
  ∀ place static σ d source p, World place static σ d source p s →
    Yields place static σ d.aPointer e (routine place d source σ)

theorem Gives.yields {call : Except Fault Outcome} {status : Nat}
    (h : Gives place static σ q status s call) : Yields place static σ q s call :=
  Ends.mono h fun _ hout => hout.2

/-- A call leaves one string. -/
theorem Yields.unique {call : Except Fault Outcome} (h : Yields place static σ q s call)
    (h' : Yields place static σ q e call) (hspace : ∀ σ n, 0 < n → place σ n ≠ 0) : s = e := by
  cases h with
  | ok h =>
    cases h' with
    | ok h' => exact h.dynamic.unique h'.dynamic
  | error h =>
    obtain ⟨-, σ, n, hn, hp⟩ := h
    exact absurd hp (hspace σ n hn)

theorem yields_orElse_iff (call : Except Fault Outcome) (secondResult : Nat) :
    Yields place static σ q s (call >>= fun result => pure (result.orElse secondResult)) ↔
      Yields place static σ q s call := by
  cases call with
  | error fault =>
    constructor
    · rintro (_ | h)
      exact .error h
    · rintro (_ | h)
      exact .error h
  | ok out =>
    constructor
    · rintro (⟨⟨htidy, hdynamic, hframe⟩⟩ | _)
      exact .ok ⟨htidy, hdynamic, hframe⟩
    · rintro (⟨⟨htidy, hdynamic, hframe⟩⟩ | _)
      exact .ok ⟨htidy, hdynamic, hframe⟩

/-! ## Copying from within and from outside -/

/-- The string `s` at address 1, with nothing but one byte everywhere behind it. -/
def textStore (s : List Byte) (behind : Byte) : Store := ⟨fun a => s.getD (a - 1) behind, []⟩

def textSource (s : List Byte) : Descriptor := ⟨BitVec.ofNat 16 s.length, .s, 1⟩

theorem textStore_bytes (s : List Byte) (behind : Byte) :
    bytesAt (textStore s behind).memory 1 s.length = s := by
  refine bytesAt_eq_iff.mpr ⟨rfl, fun i hi => ?_⟩
  simp only [textStore, Nat.add_sub_cancel_left, List.getD_eq_getElem?_getD,
    List.getElem?_eq_getElem hi, Option.getD_some]

theorem textStore_tidy (s : List Byte) (behind : Byte) : Tidy static (textStore s behind) := by
  constructor
  · exact fun b hb => nomatch hb
  · exact fun b hb => nomatch hb
  · exact fun b hb => nomatch hb

theorem textWorld (hs : s.length < 65536) (behind : Byte) (base : Nat) (hbase : s.length < base) :
    World (above base) (· < base) (textStore s behind) nullString (textSource s) 1 s := by
  refine ⟨above_allocates base, textStore_tidy s behind, ⟨[], nullString_dynamic _⟩, ?_⟩
  exact Source.of_static (by decide) hs (textStore_bytes s behind) fun a _ ha => by
    show a < base
    omega

/-- In this world a copy of any `k` bytes returns, and leaves just them. -/
theorem textWorld_copy (hs : s.length < 65536) (behind : Byte) {n : BitVec 16}
    (hcall : Yields (above (o + 131072)) (· < o + 131072) (textStore s behind) 0 e
      (strCopyR (above (o + 131072)) nullString n (1 + o) (textStore s behind))) :
    bytesAt (textStore s behind).memory (1 + o) n.toNat = e := by
  have hn := n.isLt
  have hw := textWorld hs behind (o + 131072) (by omega)
  have hcopy := strCopyR_dynamic (p := 1 + o) (n := n) hw.allocates hw.tidy
    (nullString_dynamic (textStore s behind)) (fun h => by omega) fun i hi => Or.inl (by
      show 1 + o + i < o + 131072
      omega)
  exact hcopy.yields.unique hcall fun σ n _ => above_ne_zero (by omega) σ n

/-- A copy of `k` bytes from the offset `o` is right when they are in the string, and the right
ones. -/
theorem extracts_copy_iff
    {routine : (Store → Nat → Nat) → Descriptor → Descriptor → Store → Except Fault Outcome}
    (hs : s.length < 65536) {n : BitVec 16}
    (hroutine : ∀ place static σ d source p q e, Source static σ [q] source p s →
      (Yields place static σ q e (routine place d source σ) ↔
        Yields place static σ q e (strCopyR place d n (p + o) σ))) :
    Extracts routine s e ↔
      (n.toNat = 0 ∨ o + n.toNat ≤ s.length) ∧ (s.drop o).take n.toNat = e := by
  constructor
  · intro h
    have hcopied : ∀ behind, bytesAt (textStore s behind).memory (1 + o) n.toNat = e := by
      intro behind
      have hw := textWorld hs behind (o + 131072) (by omega)
      exact textWorld_copy hs behind
        ((hroutine _ _ _ _ _ _ _ _ hw.source).mp (h _ _ _ _ _ _ hw))
    have hinside : n.toNat = 0 ∨ o + n.toNat ≤ s.length := by
      by_contra houtside
      push Not at houtside
      -- the last byte copied is behind the string, and there it is as one likes
      have hlast : ∀ behind, e.getLast? = some behind := by
        intro behind
        obtain ⟨n', hn'⟩ := Nat.exists_eq_succ_of_ne_zero houtside.1
        rw [← hcopied behind, hn', bytesAt_snoc, List.getLast?_concat]
        have hnone : s[1 + o + n' - 1]? = none := List.getElem?_eq_none (by omega)
        simp only [textStore, List.getD_eq_getElem?_getD, hnone, Option.getD_none]
      have heq := (hlast 0).symm.trans (hlast 1)
      revert heq
      decide
    refine ⟨hinside, ?_⟩
    rw [← bytesAt_part (textStore_bytes s 0) hinside]
    exact hcopied 0
  · rintro ⟨hinside, rfl⟩ place static σ d source p hw
    obtain ⟨t, ht⟩ := hw.destination
    rw [hroutine _ _ _ _ _ _ _ _ hw.source]
    exact (strCopyR_part hw.allocates hw.tidy ht hw.source hinside).yields

/-! ## How much is taken -/

/-- What is taken of an endless string when `w` bytes are asked for: of a negative length what an
`unsigned short` keeps of what an `int` keeps of it, where that is not negative. -/
def takenLength (w : Int) : Nat := if 0 < w then w.toNat else (asInt w).toNat % 65536

/-- What is taken behind `o` bytes of a string of `n`. -/
def partCount (n o : Nat) (w : Int) : Nat :=
  if 0 < w then min (takenLength w) (n - o) else takenLength w

theorem takenLength_of_isInt {w : Int} (hw : -2 ^ 31 ≤ w) : takenLength w = w.toNat := by
  rw [takenLength]
  split
  · rfl
  · rw [asInt_of_isInt (by omega)]
    omega

theorem offsetOf_lt (position : Int) : offsetOf position < 2 ^ 31 := by
  have h := @Int.bmod_lt position (2 ^ 32) (by decide)
  rw [offsetOf, asInt]
  omega

theorem count_eq_partCount {n o : Nat} (w : Int) (hn : n < 65536) (ho : o < 2 ^ 31) :
    (if w < (n : Int) - o then asInt w else (n : Int) - o).toNat % 65536 = partCount n o w := by
  rw [partCount]
  by_cases hpos : 0 < w
  · rw [if_pos hpos, takenLength, if_pos hpos]
    split
    · rw [asInt_of_isInt (by omega)]
      omega
    · omega
  · rw [if_neg hpos]
    split
    · rw [takenLength, if_neg hpos]
    · rw [takenLength_of_isInt (by omega)]
      omega

theorem left_count {n : Nat} (w : Int) (hn : n < 65536) :
    (asInt (min (n : Int) w)).toNat % 65536 = partCount n 0 w := by
  rw [← count_eq_partCount w hn (by decide)]
  split
  · rw [Int.min_eq_right (by omega)]
  · rw [Int.min_eq_left (by omega), asInt_of_isInt (by omega)]
    rfl

/-- The condition on a part: what is taken is `e`, and all of it from the string. -/
def PartRight (s : List Byte) (o : Nat) (w : Int) (e : List Byte) : Prop :=
  (0 < w ∨ takenLength w = 0 ∨ o + takenLength w ≤ s.length) ∧
    (s.drop o).take (takenLength w) = e

theorem partCount_right_iff (s : List Byte) (o : Nat) (w : Int) (e : List Byte) :
    ((partCount s.length o w = 0 ∨ o + partCount s.length o w ≤ s.length) ∧
      (s.drop o).take (partCount s.length o w) = e) ↔ PartRight s o w e := by
  rw [PartRight, partCount]
  by_cases hpos : 0 < w
  · have hinside : min (takenLength w) (s.length - o) = 0 ∨
        o + min (takenLength w) (s.length - o) ≤ s.length := by omega
    have htake : (s.drop o).take (min (takenLength w) (s.length - o)) =
        (s.drop o).take (takenLength w) := by
      rw [← List.length_drop, ← List.take_take, List.take_length]
    rw [if_pos hpos, htake]
    simp only [hpos, hinside, true_or, true_and]
  · rw [if_neg hpos]
    simp only [hpos, false_or]

/-- A routine that comes down to a copy of a part. -/
theorem extracts_part_iff
    {routine : (Store → Nat → Nat) → Descriptor → Descriptor → Store → Except Fault Outcome}
    (hs : s.length < 65536) {w : Int} {final : Int}
    (hfinal : final.toNat % 65536 = partCount s.length o w)
    (hroutine : ∀ place static σ d source p q e, Source static σ [q] source p s →
      (Yields place static σ q e (routine place d source σ) ↔
        Yields place static σ q e (strCopyR place d (realLength final) (p + o) σ))) :
    Extracts routine s e ↔ PartRight s o w e := by
  rw [extracts_copy_iff hs hroutine, toNat_realLength, hfinal]
  exact partCount_right_iff s o w e

theorem left_extracts_iff (hs : s.length < 65536) (n : BitVec 64) :
    Extracts (fun place d source σ => strLeft place d source n σ) s e ↔
      PartRight s 0 n.toInt e := by
  apply extracts_part_iff hs (left_count n.toInt hs)
  intro place static σ d source p q e hsource
  simp only [strLeft, hsource.analyzed, ok_bind, hsource.toNat_length, Nat.add_zero]

theorem lenExtr_extracts_iff (hs : s.length < 65536) (i n : BitVec 64) :
    Extracts (fun place d source σ => strLenExtr place d source i n σ) s e ↔
      PartRight s (offsetOf i.toInt) n.toInt e := by
  apply extracts_part_iff hs (count_eq_partCount n.toInt hs (offsetOf_lt i.toInt))
  intro place static σ d source p q e hsource
  simp only [strLenExtr, hsource.analyzed, ok_bind, hsource.toNat_length, offsetOf_eq,
    Int.add_sub_cancel, Int.toNat_natCast, yields_orElse_iff]

theorem posExtr_extracts_iff (hs : s.length < 65536) (i j : BitVec 64) :
    Extracts (fun place d source σ => strPosExtr place d source i j σ) s e ↔
      PartRight s (offsetOf i.toInt) (asLong (j.toInt - i.toInt + 1)) e := by
  apply extracts_part_iff hs (count_eq_partCount _ hs (offsetOf_lt i.toInt))
  intro place static σ d source p q e hsource
  have hrest : (s.length : Int) - (offsetOf i.toInt + 1) + 1 = s.length - offsetOf i.toInt := by
    omega
  simp only [strPosExtr, hsource.analyzed, ok_bind, hsource.toNat_length, offsetOf_eq,
    Int.add_sub_cancel, Int.toNat_natCast, hrest, yields_orElse_iff]

/-! ## `str$right` -/

theorem strRight_eq (hs : Source static σ [q] source p s) {i : BitVec 64}
    (hi : i.toInt ≤ s.length) :
    ∃ secondResult, strRight place d source i σ =
      (strCopyR place d (realLength ((s.length : Int) - rightOffset i.toInt))
        (p + rightOffset i.toInt) σ >>= fun result => pure { result.orElse secondResult with
          destination := { result.destination with
            wLength := BitVec.ofInt 16 ((s.length : Int) - rightOffset i.toInt) } }) := by
  have hpast : ¬ (s.length : Int) < i.toInt := by omega
  simp only [strRight, hs.analyzed, ok_bind, hs.toNat_length, rightOffset_eq, Int.toNat_natCast,
    if_neg hpast]
  exact ⟨_, rfl⟩

/-- Behind the end of the source the destination is freed, for the empty string. -/
theorem right_past (hw : World place static σ d source p s) {i : BitVec 64}
    (hi : s.length < i.toInt) :
    Yields place static σ d.aPointer [] (strRight place d source i σ) := by
  obtain ⟨t, ht⟩ := hw.destination
  obtain ⟨freed, hfree, -, htidy, hdynamic, hframe⟩ := strFree1Dx_dynamic hw.tidy ht
  simp only [strRight, hw.source.analyzed, ok_bind, hw.source.toNat_length, if_pos hi, hfree]
  exact .ok ⟨htidy, hdynamic, hframe⟩

/-- The length that is stored is that of the copy, if the copy does not start behind the end. -/
theorem right_within (hw : World place static σ d source p s) {i : BitVec 64}
    (hi : i.toInt ≤ s.length)
    (ho : rightOffset i.toInt ≤ s.length ∨ s = [] ∧ 65536 ∣ rightOffset i.toInt) :
    Yields place static σ d.aPointer (s.drop (rightOffset i.toInt))
      (strRight place d source i σ) := by
  obtain ⟨t, ht⟩ := hw.destination
  obtain ⟨secondResult, hright⟩ := @strRight_eq place static σ d source s p _ hw.source i hi
  have hfits := hw.source.fits
  have hlength : (realLength ((s.length : Int) - rightOffset i.toInt)).toNat =
      s.length - rightOffset i.toInt := by
    rw [toNat_realLength]
    omega
  have hcopy := strCopyR_part hw.allocates hw.tidy ht hw.source
    (n := realLength ((s.length : Int) - rightOffset i.toInt)) (o := rightOffset i.toInt)
    (by rw [hlength]; omega)
  rw [hright]
  apply Ends.bind hcopy
  rintro out ⟨-, htidy, hdynamic, hframe⟩
  rw [hlength, List.take_of_length_le (by rw [List.length_drop])] at hdynamic
  have hw' : BitVec.ofInt 16 ((s.length : Int) - rightOffset i.toInt) =
      out.destination.wLength := by
    apply BitVec.eq_of_toNat_eq
    rw [hdynamic.length, List.length_drop, BitVec.toNat_ofInt]
    rcases ho with ho | ⟨rfl, ho⟩
    · omega
    · rw [List.length_nil]
      omega
  rw [hw']
  exact .ok ⟨htidy, hdynamic, hframe⟩

/-- Nothing is copied into a null string, which stays one. -/
theorem strCopyR_nothing (src : Nat) :
    ∃ out, strCopyR place nullString 0 src σ = .ok out ∧ out.destination = nullString := by
  refine ⟨_, rfl, rfl⟩

theorem right_extracts_iff (hs : s.length < 65536) (i : BitVec 64) :
    Extracts (fun place d source σ => strRight place d source i σ) s (posExtrOf s i.toInt s.length) ↔
      s.length < i.toInt ∨ 1 ≤ i.toInt ∨ rightOffset i.toInt = 0 ∨
        s = [] ∧ 65536 ∣ rightOffset i.toInt := by
  have hexpected : posExtrOf s i.toInt s.length = s.drop (i.toInt - 1).toNat := by
    rw [posExtrOf, Int.toNat_natCast, List.take_length]
  rw [hexpected]
  constructor
  · intro h
    by_contra hcondition
    push Not at hcondition
    obtain ⟨hpast, hi, ho, hempty⟩ := hcondition
    have hw := textWorld hs 0 (rightOffset i.toInt + 131072) (by omega)
    obtain ⟨secondResult, hright⟩ := @strRight_eq (above (rightOffset i.toInt + 131072)) _ _
      nullString _ s 1 _ hw.source i hpast
    have hwhole : s.drop (i.toInt - 1).toNat = s := by
      rw [Int.toNat_of_nonpos (by omega), List.drop_zero]
    have hcall : Yields _ _ _ _ _ (strRight _ nullString (textSource s) i (textStore s 0)) :=
      h _ _ _ _ _ _ hw
    rw [hwhole] at hcall
    by_cases hinside : rightOffset i.toInt ≤ s.length
    · -- a part that is shorter than the string
      have heq := (right_within hw hpast (Or.inl hinside)).unique hcall
        fun σ n _ => above_ne_zero (by omega) σ n
      have hlength := congrArg List.length heq
      rw [List.length_drop] at hlength
      omega
    · -- nothing is copied, but the length is that of the part
      have hnothing : realLength ((s.length : Int) - rightOffset i.toInt) = 0 :=
        if_pos (by omega)
      obtain ⟨out, hcopy, hout⟩ := @strCopyR_nothing (above (rightOffset i.toInt + 131072))
        (textStore s 0) (1 + rightOffset i.toInt)
      rw [hright, hnothing, hcopy, ok_bind, hout] at hcall
      cases hcall with
      | ok hleaves =>
        rcases hleaves.dynamic.owned with ⟨-, hnil⟩ | ⟨hp, -⟩
        · subst hnil
          have hlength := hleaves.dynamic.length
          rw [List.length_nil, BitVec.toNat_ofInt] at hlength
          exact hempty rfl (by omega)
        · exact hp rfl
  · intro hcondition place static σ d source p hw
    by_cases hpast : (s.length : Int) < i.toInt
    · rw [List.drop_eq_nil_of_le (by omega)]
      exact right_past hw hpast
    · have ho : s.drop (i.toInt - 1).toNat = s.drop (rightOffset i.toInt) ∧
          (rightOffset i.toInt ≤ s.length ∨ s = [] ∧ 65536 ∣ rightOffset i.toInt) := by
        by_cases hi : 1 ≤ i.toInt
        · have : rightOffset i.toInt = (i.toInt - 1).toNat := by
            rw [rightOffset, asInt_of_isInt (by omega)]
          exact ⟨by rw [this], Or.inl (by omega)⟩
        · rw [Int.toNat_of_nonpos (by omega)]
          rcases hcondition with h | h | h | ⟨rfl, h⟩
          · exact absurd h hpast
          · exact absurd h hi
          · exact ⟨by rw [h], Or.inl (by omega)⟩
          · exact ⟨by simp, Or.inr ⟨rfl, h⟩⟩
      rw [ho.1]
      exact right_within hw (by omega) ho.2

/-! ## The laws -/

/-- What is promised of the source `s`, the positions `i` and `j` and the length `n`: each routine
leaves the substring from one position to another, and a string is what is to the left of its end
and what is to the right of it. -/
structure SubstringLaws (s : List Byte) (i j n : BitVec 64) : Prop where
  posExtr : Extracts (fun place d source σ => strPosExtr place d source i j σ) s
    (posExtrOf s i.toInt j.toInt)
  lenExtr : Extracts (fun place d source σ => strLenExtr place d source i n σ) s
    (posExtrOf s (max i.toInt 1) (max i.toInt 1 + n.toInt - 1))
  left : Extracts (fun place d source σ => strLeft place d source n σ) s (posExtrOf s 1 n.toInt)
  right : Extracts (fun place d source σ => strRight place d source i σ) s
    (posExtrOf s i.toInt s.length)
  joined : 0 ≤ n.toInt → n.toInt ≤ s.length → ∃ front rest,
    Extracts (fun place d source σ => strLeft place d source n σ) s front ∧
    Extracts (fun place d source σ => strRight place d source (n + 1) σ) s rest ∧ front ++ rest = s

/-- When `str$pos_extr` keeps its promise. The end is compared with the length from the position
given, not from 1: for a position below 1 that is too long, unless the string ends before. What an
`int` or a `long` does not hold selects some part, which may be the right one by chance. -/
def PosExtrCondition (s : List Byte) (i j : Int) : Prop :=
  if (-2 ^ 31 ≤ i ∧ i < 2 ^ 31) ∧ -2 ^ 63 ≤ j - i + 1 ∧ j - i + 1 < 2 ^ 63 then
    (i ≤ j → 1 ≤ i ∨ s.length ≤ j ∨ s = []) ∧ (j < i → takenLength (j - i + 1) = 0)
  else PartRight s (offsetOf i) (asLong (j - i + 1)) (posExtrOf s i j)

/-- When all of them do. -/
structure SubstringCondition (s : List Byte) (i j n : Int) : Prop where
  posExtr : PosExtrCondition s i j
  length : 0 < n ∨ takenLength n = 0
  lenExtr : (-2 ^ 31 ≤ i ∧ i < 2 ^ 31) ∨ lenExtrOf s (asInt i) n = lenExtrOf s i n
  right : s.length < i ∨ 1 ≤ i ∨ rightOffset i = 0 ∨ s = [] ∧ 65536 ∣ rightOffset i

theorem posExtrOf_count (s : List Byte) (i n : Int) :
    posExtrOf s (max i 1) (max i 1 + n - 1) = lenExtrOf s i n := by
  have hstart : (max i 1 - 1).toNat = (i - 1).toNat := by omega
  rw [posExtrOf, lenExtrOf, hstart, List.drop_take]
  by_cases hn : 0 ≤ n
  · congr 1
    omega
  · have hzero : (max i 1 + n - 1).toNat - (i - 1).toNat = 0 := by omega
    have hn' : n.toNat = 0 := by omega
    rw [hzero, hn']

/-- A part with a length that is not negative is the part that the `int` selects. -/
theorem partRight_of_length {i n : Int} (hn : 0 < n ∨ takenLength n = 0) :
    PartRight s (offsetOf i) n e ↔ lenExtrOf s (asInt i) n = e := by
  have htaken : takenLength n = n.toNat := by
    rcases hn with hn | hn
    · exact if_pos hn
    · by_cases hpos : 0 < n
      · exact if_pos hpos
      · rw [hn, Int.toNat_of_nonpos (by omega)]
  rw [PartRight, htaken, lenExtrOf, offsetOf]
  constructor
  · exact fun h => h.2
  · intro h
    refine ⟨?_, h⟩
    rw [htaken] at hn
    rcases hn with hn | hn
    · exact Or.inl hn
    · exact Or.inr (Or.inl hn)

/-- Where nothing is wanted nothing may be taken. -/
theorem partRight_nil_iff {n : Int} (hn : n ≤ 0) : PartRight s o n [] ↔ takenLength n = 0 := by
  constructor
  · rintro ⟨hinside, htake⟩
    have hlength := congrArg List.length htake
    rw [List.length_take, List.length_drop, List.length_nil] at hlength
    omega
  · intro h
    rw [PartRight, h]
    exact ⟨Or.inr (Or.inl rfl), List.take_zero⟩

theorem lenExtrOf_nonpos (s : List Byte) (i : Int) {n : Int} (hn : n ≤ 0) : lenExtrOf s i n = [] := by
  rw [lenExtrOf, Int.toNat_of_nonpos hn, List.take_zero]

theorem lenExtr_right_iff (hs : s.length < 65536) (i n : BitVec 64) :
    Extracts (fun place d source σ => strLenExtr place d source i n σ) s
        (lenExtrOf s i.toInt n.toInt) ↔
      (0 < n.toInt ∨ takenLength n.toInt = 0) ∧ ((-2 ^ 31 ≤ i.toInt ∧ i.toInt < 2 ^ 31) ∨
        lenExtrOf s (asInt i.toInt) n.toInt = lenExtrOf s i.toInt n.toInt) := by
  rw [lenExtr_extracts_iff hs]
  have hint : (-2 ^ 31 ≤ i.toInt ∧ i.toInt < 2 ^ 31) →
      lenExtrOf s (asInt i.toInt) n.toInt = lenExtrOf s i.toInt n.toInt := fun h => by
    rw [asInt_of_isInt h]
  constructor
  · intro h
    have hn : 0 < n.toInt ∨ takenLength n.toInt = 0 := by
      rcases lt_or_ge 0 n.toInt with hn | hn
      · exact Or.inl hn
      · rw [lenExtrOf_nonpos s i.toInt hn, partRight_nil_iff hn] at h
        exact Or.inr h
    exact ⟨hn, Or.inr ((partRight_of_length hn).mp h)⟩
  · rintro ⟨hn, hposition⟩
    exact (partRight_of_length hn).mpr (hposition.elim hint id)

theorem left_right_iff (hs : s.length < 65536) (n : BitVec 64) :
    Extracts (fun place d source σ => strLeft place d source n σ) s (posExtrOf s 1 n.toInt) ↔
      0 < n.toInt ∨ takenLength n.toInt = 0 := by
  have hexpected : posExtrOf s 1 n.toInt = lenExtrOf s 1 n.toInt := by
    simp [posExtrOf, lenExtrOf]
  rw [left_extracts_iff hs, hexpected]
  constructor
  · intro h
    rcases lt_or_ge 0 n.toInt with hn | hn
    · exact Or.inl hn
    · rw [lenExtrOf_nonpos s 1 hn, partRight_nil_iff hn] at h
      exact Or.inr h
  · exact fun hn => (partRight_of_length (i := 1) hn).mpr rfl

/-- The part that is taken from a position that an `int` holds. -/
theorem posExtr_part_iff {i j : Int} (hij : i ≤ j) :
    (s.drop (i - 1).toNat).take (j - i + 1).toNat = posExtrOf s i j ↔
      1 ≤ i ∨ s.length ≤ j ∨ s = [] := by
  rw [posExtrOf, List.drop_take]
  by_cases hi : 1 ≤ i
  · have hcount : (j - i + 1).toNat = j.toNat - (i - 1).toNat := by omega
    simp only [hcount, hi, true_or]
  · have hstart : (i - 1).toNat = 0 := by omega
    rw [hstart, List.drop_zero, Nat.sub_zero]
    constructor
    · intro h
      have hlength := congrArg List.length h
      rw [List.length_take, List.length_take] at hlength
      by_cases hnil : s = []
      · exact Or.inr (Or.inr hnil)
      · have hpos := List.length_pos_iff.mpr hnil
        omega
    · rintro (h | h | rfl)
      · exact absurd h hi
      · rw [List.take_of_length_le (by omega), List.take_of_length_le (by omega)]
      · rw [List.take_nil, List.take_nil]

theorem posExtr_right_iff (hs : s.length < 65536) (i j : BitVec 64) :
    Extracts (fun place d source σ => strPosExtr place d source i j σ) s
        (posExtrOf s i.toInt j.toInt) ↔ PosExtrCondition s i.toInt j.toInt := by
  rw [posExtr_extracts_iff hs, PosExtrCondition]
  split
  · next h =>
    have ho : offsetOf i.toInt = (i.toInt - 1).toNat := by rw [offsetOf, asInt_of_isInt h.1]
    rw [asLong_of_isLong h.2]
    rcases lt_or_ge j.toInt i.toInt with hij | hij
    · have hexpected : posExtrOf s i.toInt j.toInt = [] := by
        rw [posExtrOf, List.drop_take]
        have hzero : j.toInt.toNat - (i.toInt - 1).toNat = 0 := by omega
        rw [hzero, List.take_zero]
      rw [hexpected, partRight_nil_iff (by omega)]
      exact ⟨fun htaken => ⟨fun hij' => by omega, fun _ => htaken⟩, fun hcondition => hcondition.2 hij⟩
    · have hpos : 0 < j.toInt - i.toInt + 1 := by omega
      rw [PartRight, takenLength, if_pos hpos, ho, posExtr_part_iff hij]
      exact ⟨fun hpart => ⟨fun _ => hpart.2, fun hij' => by omega⟩,
        fun hcondition => ⟨Or.inl hpos, hcondition.1 hij⟩⟩
  · exact Iff.rfl

/-- Both sides of a position in a string are right. -/
theorem left_append_right (hs : s.length < 65536) {n : BitVec 64} (hn : 0 ≤ n.toInt)
    (hle : n.toInt ≤ s.length) :
    ∃ front rest, Extracts (fun place d source σ => strLeft place d source n σ) s front ∧
      Extracts (fun place d source σ => strRight place d source (n + 1) σ) s rest ∧
      front ++ rest = s := by
  have hnext : (n + 1).toInt = n.toInt + 1 := by
    rw [BitVec.toInt_add]
    exact Int.bmod_eq_of_le (by
      show _ ≤ n.toInt + 1
      omega) (by
      show n.toInt + 1 < _
      omega)
  have hleft := (left_right_iff hs n).mpr (by
    rcases Int.lt_or_eq_of_le hn with hpos | hzero
    · exact Or.inl hpos
    · rw [← hzero]
      exact Or.inr (by decide))
  have hright := (right_extracts_iff hs (n + 1)).mpr (by omega)
  refine ⟨_, _, hleft, hright, ?_⟩
  rw [hnext, posExtrOf, posExtrOf, Int.toNat_natCast, List.take_length]
  have hstart : (n.toInt + 1 - 1).toNat = n.toInt.toNat := by omega
  rw [hstart]
  exact List.take_append_drop _ _

theorem strLeft_leaves (hw : World place static σ d source p s) {n : BitVec 64}
    (hn : 0 ≤ n.toInt) :
    Yields place static σ d.aPointer (s.take n.toInt.toNat) (strLeft place d source n σ) := by
  have hlength : 0 < n.toInt ∨ takenLength n.toInt = 0 := by
    rcases Int.lt_or_eq_of_le hn with hpos | hzero
    · exact Or.inl hpos
    · rw [← hzero]
      exact Or.inr (by decide)
  have hleft := (left_right_iff hw.source.fits n).mpr hlength
  exact hleft _ _ _ _ _ _ hw

theorem strRight_leaves (hw : World place static σ d source p s) {i : BitVec 64}
    (hi : 1 ≤ i.toInt) :
    Yields place static σ d.aPointer (s.drop (i.toInt - 1).toNat)
      (strRight place d source i σ) := by
  have hright := (right_extracts_iff hw.source.fits i).mpr (Or.inr (Or.inl hi))
  rw [posExtrOf, Int.toNat_natCast, List.take_length] at hright
  exact hright _ _ _ _ _ _ hw

/-- **Substrings.** In every world the routines leave the substrings that they should exactly under
these conditions. -/
theorem substring_laws_iff (s : List Byte) (hs : s.length < 65536) (i j n : BitVec 64) :
    SubstringLaws s i j n ↔ SubstringCondition s i.toInt j.toInt n.toInt := by
  constructor
  · intro h
    have hlength := h.lenExtr
    rw [posExtrOf_count, lenExtr_right_iff hs] at hlength
    exact ⟨(posExtr_right_iff hs i j).mp h.posExtr, hlength.1, hlength.2,
      (right_extracts_iff hs i).mp h.right⟩
  · intro h
    constructor
    · exact (posExtr_right_iff hs i j).mpr h.posExtr
    · rw [posExtrOf_count, lenExtr_right_iff hs]
      exact ⟨h.length, h.lenExtr⟩
    · exact (left_right_iff hs n).mpr h.length
    · exact (right_extracts_iff hs i).mpr h.right
    · exact left_append_right hs

theorem substring_laws_iff_abc :
    SubstringLaws [65, 66, 67] 2 3 1 ↔ SubstringCondition [65, 66, 67] 2 3 1 :=
  substring_laws_iff [65, 66, 67] (by decide) 2 3 1

/-- From position 0 to position 1 of `ABC` there are two characters. -/
theorem substring_from_zero : ¬ SubstringLaws [65, 66, 67] 0 1 1 := by
  intro h
  have hcondition := (posExtr_right_iff (by decide) 0 1).mp h.posExtr
  rw [PosExtrCondition, if_pos (by decide)] at hcondition
  revert hcondition
  decide

end FreeVMS.Rtl.Str
