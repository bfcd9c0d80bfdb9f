import FreeVMS.Rtl.StrExtract

/-!
# Fixed-length destinations

What each routine leaves in a destination of class S. All but `str$concat` go through
`str$copy_r`, which keeps such a descriptor; `str$right` then stores a length in it all the same,
and frees it when the position is past the end of the source, as `str$concat` always does.
-/

namespace FreeVMS.Rtl.Str

variable (place : Store → Nat → Nat)

/-! ## The result strings -/

def leftOf (s : List Byte) (endPosition : Int) : List Byte := s.take endPosition.toNat

def rightOf (s : List Byte) (startPosition : Int) : List Byte := s.drop (startPosition - 1).toNat

def posExtrOf (s : List Byte) (startPosition endPosition : Int) : List Byte :=
  (s.take endPosition.toNat).drop (startPosition - 1).toNat

def lenExtrOf (s : List Byte) (startPosition length : Int) : List Byte :=
  (s.drop (startPosition - 1).toNat).take length.toNat

/-- The call returns, keeps the length and the address of its destination and leaves the string
`s` in it, cut or padded with blanks. -/
def LeavesFixed (d : Descriptor) (s : List Byte) (call : Except Fault Outcome) : Prop :=
  ∃ out, call = .ok out ∧ out.destination.wLength = d.wLength ∧
    out.destination.aPointer = d.aPointer ∧
    bytesAt out.store.memory d.aPointer d.wLength.toNat = padded d.wLength.toNat s

/-- The text that `str$copy_r` is given: none at address 0. -/
def text (m : Memory) (p n : Nat) : List Byte := if p = 0 then [] else bytesAt m p n

theorem text_zero (m : Memory) (p : Nat) : text m p 0 = [] := by
  rw [text, bytesAt_zero, ite_self]

theorem text_eq_bytesAt {m : Memory} {p n : Nat} (h : p = 0 → n = 0) :
    text m p n = bytesAt m p n := by
  by_cases hp : p = 0
  · rw [h hp, text_zero, bytesAt_zero]
  · rw [text, if_neg hp]

/-- A part of a text, read where it starts. -/
theorem text_part {m : Memory} {p n o k k' : Nat} (hnull : p = 0 → n = 0)
    (hk : k = min k' (n - o)) :
    text m (p + o) k = ((bytesAt m p n).drop o).take k' := by
  rw [text_eq_bytesAt (fun h => by
    have hn := hnull (by omega)
    omega)]
  apply List.ext_getElem
  · simp only [List.length_take, List.length_drop, length_bytesAt]
    omega
  · intro i _ _
    simp [bytesAt, Nat.add_assoc]

/-- A source whose address is 0 is empty. -/
theorem strAnalyzeSdesc_null {m : Memory} {d : Descriptor} {n : BitVec 16}
    (h : strAnalyzeSdesc m d = .ok (n, 0)) : n = 0 := by
  simp only [strAnalyzeSdesc] at h
  split_ifs at h with h1 h2 h3 h4 h5
  · simp at h
  · simp only [Except.ok.injEq, Prod.mk.injEq] at h
    obtain ⟨rfl, hp⟩ := h
    by_contra hn
    exact h2 ⟨hp, hn⟩

section fixed

variable {d : Descriptor} (hd : d.bClass = .s) (hp : d.aPointer ≠ 0)
include hd hp

/-- What `str$copy_r` does with a fixed-length destination. -/
theorem strCopyR_fixed (n : BitVec 16) (src : Nat) (σ : Store) :
    ∃ status memory, strCopyR place d n src σ = .ok ⟨status, d, { σ with memory := memory }⟩ ∧
      bytesAt memory d.aPointer d.wLength.toNat =
        padded d.wLength.toNat (text σ.memory src n.toNat) := by
  have hclass : isStringClass d = strNormal := by simp [isStringClass, hd]
  have hresize : strResize place d n σ = .ok ⟨strNormal, d, σ⟩ := by
    simp [strResize, hd, hp]
  have hanalyze : strAnalyzeSdesc σ.memory d = .ok (d.wLength, d.aPointer) := by
    simp [strAnalyzeSdesc, hclass, hd, hp]
  refine ⟨_, _, by
    simp only [strCopyR, hclass, hresize, hanalyze, ne_eq, not_true_eq_false, if_false, bind,
      Except.bind, pure, Except.pure]; rfl, ?_⟩
  by_cases hs : src = 0
  · rw [strCopyFill_bytes _ _ _ _ _ (by simp [hs])]
    simp [hs, text]
  · rw [strCopyFill_bytes _ _ _ _ _ (fun h => absurd h hs)]
    simp [hs, text]

/-- A copy leaves what it was asked for exactly when the text given to it looks like that. -/
theorem leavesFixed_copy_iff (s : List Byte) (n : BitVec 16) (src : Nat) (σ : Store) :
    LeavesFixed d s (strCopyR place d n src σ) ↔
      padded d.wLength.toNat (text σ.memory src n.toNat) = padded d.wLength.toNat s := by
  obtain ⟨status, memory, hcopy, hbytes⟩ := strCopyR_fixed place hd hp n src σ
  rw [hcopy]
  constructor
  · rintro ⟨out, hout, -, -, hout'⟩
    cases hout
    rw [← hbytes, ← hout']
  · intro h
    exact ⟨_, rfl, rfl, rfl, hbytes.trans h⟩

end fixed

/-- A call that goes on with the value it was given. -/
theorem ok_bind {α β : Type} (a : α) (f : α → Except Fault β) : (Except.ok a >>= f) = f a := rfl

/-- The status does not matter for what is left. -/
theorem leavesFixed_orElse_iff (d : Descriptor) (s : List Byte) (copy : Except Fault Outcome)
    (secondResult : Nat) :
    LeavesFixed d s (copy >>= fun result => pure (result.orElse secondResult)) ↔
      LeavesFixed d s copy := by
  cases copy with
  | error fault => exact Iff.rfl
  | ok out =>
    rw [ok_bind]
    simp only [LeavesFixed, pure, Except.pure, Except.ok.injEq, exists_eq_left', Outcome.orElse]

/-! ## Positions -/

theorem asInt_of_isInt {x : Int} (h : -2 ^ 31 ≤ x ∧ x < 2 ^ 31) : asInt x = x := by
  rw [asInt]
  exact Int.bmod_eq_of_le (by omega) (by omega)

theorem asLong_of_isLong {x : Int} (h : -2 ^ 63 ≤ x ∧ x < 2 ^ 63) : asLong x = x := by
  rw [asLong]
  exact Int.bmod_eq_of_le (by omega) (by omega)

theorem toNat_realLength (x : Int) : (realLength x).toNat = x.toNat % 65536 := by
  rw [realLength]
  split
  · next h => simp [Int.toNat_of_nonpos (Int.le_of_lt h)]
  · next h =>
    rw [BitVec.toNat_ofInt]
    omega

/-- Where a part starts when its position is taken as an `int`. -/
def offsetOf (position : Int) : Nat := (asInt position - 1).toNat

theorem offsetOf_eq (position : Int) :
    (if asInt position ≤ 0 then 1 else asInt position) = (offsetOf position : Int) + 1 := by
  rw [offsetOf]
  split <;> omega

/-- How many bytes `str$pos_extr` takes of a source of `n`. -/
def posExtrCount (n : Nat) (startPosition endPosition : Int) : Nat :=
  let wanted := asLong (endPosition - startPosition + 1)
  let rest := (n : Int) - offsetOf startPosition
  (if wanted < rest then asInt wanted else rest).toNat % 65536

/-- How many bytes `str$len_extr` takes of a source of `n`. -/
def lenExtrCount (n : Nat) (startPosition length : Int) : Nat :=
  let rest := (n : Int) - offsetOf startPosition
  (if length < rest then asInt length else rest).toNat % 65536

section routines

variable {d source : Descriptor} (hd : d.bClass = .s) (hp : d.aPointer ≠ 0)
  {σ : Store} {n : BitVec 16} {p : Nat} (hs : strAnalyzeSdesc σ.memory source = .ok (n, p))
include hd hp hs

theorem leavesFixed_left_iff (s : List Byte) (endPosition : BitVec 64) :
    LeavesFixed d s (strLeft place d source endPosition σ) ↔
      padded d.wLength.toNat (text σ.memory p
        ((asInt (min (n.toNat : Int) endPosition.toInt)).toNat % 65536)) =
        padded d.wLength.toNat s := by
  rw [← toNat_realLength, ← leavesFixed_copy_iff place hd hp]
  simp only [strLeft, hs, ok_bind]

theorem leavesFixed_posExtr_iff (s : List Byte) (startPosition endPosition : BitVec 64) :
    LeavesFixed d s (strPosExtr place d source startPosition endPosition σ) ↔
      padded d.wLength.toNat (text σ.memory (p + offsetOf startPosition.toInt)
        (posExtrCount n.toNat startPosition.toInt endPosition.toInt)) =
        padded d.wLength.toNat s := by
  rw [posExtrCount, ← toNat_realLength, ← leavesFixed_copy_iff place hd hp]
  have hrest : (n.toNat : Int) - (offsetOf startPosition.toInt + 1) + 1 =
      n.toNat - offsetOf startPosition.toInt := by omega
  simp only [strPosExtr, hs, ok_bind, offsetOf_eq, Int.add_sub_cancel, Int.toNat_natCast, hrest,
    leavesFixed_orElse_iff]

theorem leavesFixed_lenExtr_iff (s : List Byte) (startPosition length : BitVec 64) :
    LeavesFixed d s (strLenExtr place d source startPosition length σ) ↔
      padded d.wLength.toNat (text σ.memory (p + offsetOf startPosition.toInt)
        (lenExtrCount n.toNat startPosition.toInt length.toInt)) =
        padded d.wLength.toNat s := by
  rw [lenExtrCount, ← toNat_realLength, ← leavesFixed_copy_iff place hd hp]
  simp only [strLenExtr, hs, ok_bind, offsetOf_eq, Int.add_sub_cancel, Int.toNat_natCast,
    leavesFixed_orElse_iff]

end routines

/-- Where `str$right` starts to copy. -/
def rightOffset (startPosition : Int) : Nat := (asInt (startPosition - 1)).toNat

theorem rightOffset_eq (startPosition : Int) :
    (if asInt (startPosition - 1) ≤ 0 then 0 else asInt (startPosition - 1)) =
      (rightOffset startPosition : Int) := by
  rw [rightOffset]
  split <;> omega

/-- Freeing a fixed-length destination takes its address away. -/
theorem strFree1Dx_fixed {d : Descriptor} (hd : d.bClass = .s) (hp : d.aPointer ≠ 0) {σ : Store}
    {out : Outcome} (h : strFree1Dx d σ = .ok out) :
    out.status = strNormal ∧ out.destination.bClass = .s ∧ out.destination.aPointer = 0 := by
  have hclass : isStringClass d = strNormal := by simp [isStringClass, hd]
  simp only [strFree1Dx, hclass, hp, ne_eq, not_true_eq_false, if_false, bind, Except.bind, pure,
    Except.pure] at h
  generalize free σ d.aPointer = freed at h
  cases freed with
  | error fault => cases h
  | ok σ' =>
    cases h
    exact ⟨rfl, hd, rfl⟩

section frees

variable {d : Descriptor} (hd : d.bClass = .s) (hp : d.aPointer ≠ 0)
include hd hp

theorem leavesFixed_right_iff {source : Descriptor} {σ : Store} {n : BitVec 16} {p : Nat}
    (hs : strAnalyzeSdesc σ.memory source = .ok (n, p)) (s : List Byte)
    (startPosition : BitVec 64) :
    LeavesFixed d s (strRight place d source startPosition σ) ↔
      startPosition.toInt ≤ n.toNat ∧
      BitVec.ofInt 16 ((n.toNat : Int) - rightOffset startPosition.toInt) = d.wLength ∧
      padded d.wLength.toNat (text σ.memory (p + rightOffset startPosition.toInt)
        (n.toNat - rightOffset startPosition.toInt)) = padded d.wLength.toNat s := by
  simp only [strRight, hs, bind, Except.bind, pure, Except.pure, rightOffset_eq, Int.toNat_natCast]
  by_cases hpast : (n.toNat : Int) < startPosition.toInt
  · rw [if_pos hpast]
    constructor
    · rintro ⟨out, hout, -, haddress, -⟩
      generalize hfree : strFree1Dx d σ = freed at hout
      cases freed with
      | error fault => cases hout
      | ok out' =>
        cases hout
        exact absurd (haddress.symm.trans (strFree1Dx_fixed hd hp hfree).2.2) hp
    · rintro ⟨hle, -⟩
      omega
  · rw [if_neg hpast]
    have hn := n.isLt
    have hlength : (realLength ((n.toNat : Int) - rightOffset startPosition.toInt)).toNat =
        n.toNat - rightOffset startPosition.toInt := by
      rw [toNat_realLength]
      omega
    obtain ⟨status, memory, hcopy, hbytes⟩ := strCopyR_fixed place hd hp
      (realLength ((n.toNat : Int) - rightOffset startPosition.toInt))
      (p + rightOffset startPosition.toInt) σ
    rw [hlength] at hbytes
    rw [hcopy, ← hbytes]
    simp only [LeavesFixed, Except.ok.injEq, exists_eq_left', Outcome.orElse, true_and]
    constructor
    · rintro ⟨hkept, hbuffer⟩
      exact ⟨by omega, hkept, hbuffer⟩
    · rintro ⟨-, hkept, hbuffer⟩
      exact ⟨hkept, hbuffer⟩

/-- `str$concat` frees its destination first and never leaves anything in a fixed-length one. -/
theorem not_leavesFixed_concat (s : List Byte) (items : List Descriptor) (σ : Store) :
    ¬ LeavesFixed d s (strConcat place d items σ) := by
  rintro ⟨out, hout, -, haddress, -⟩
  simp only [strConcat, bind, Except.bind] at hout
  generalize hfree : strFree1Dx d σ = freed at hout
  cases freed with
  | error fault => cases hout
  | ok freed =>
    obtain ⟨hstatus, hclass, haddress'⟩ := strFree1Dx_fixed hd hp hfree
    cases items with
    | nil =>
      cases hout
      exact hp (haddress.symm.trans haddress')
    | cons item items =>
      have happend : strAppend place freed.destination item freed.store =
          .error (.signal strIllstrcla) := by
        simp [strAppend, hclass, bind, Except.bind, throw, throwThe, MonadExceptOf.throw]
      simp only [appendAll, hstatus, if_true, happend, bind, Except.bind] at hout
      cases hout

end frees

/-! ## Where the routines take the right part -/

section parts

variable {m : Memory} {p n : Nat} (hnull : p = 0 → n = 0) (hn : n < 65536)
include hnull hn

theorem left_plain {e : Int} (he : 0 ≤ e) :
    text m p ((asInt (min (n : Int) e)).toNat % 65536) = leftOf (bytesAt m p n) e := by
  have hint : asInt (min (n : Int) e) = min (n : Int) e := asInt_of_isInt (by omega)
  have hcount : (asInt (min (n : Int) e)).toNat % 65536 = min e.toNat (n - 0) := by
    rw [hint]
    omega
  simpa [leftOf] using text_part hnull hcount

theorem posExtr_plain {i j : Int} (hi : 1 ≤ i ∧ i < 2 ^ 31) (hj : i ≤ j + 2 ^ 31)
    (hlong : j < 2 ^ 63) :
    text m (p + offsetOf i) (posExtrCount n i j) = posExtrOf (bytesAt m p n) i j := by
  have ho : offsetOf i = (i - 1).toNat := by rw [offsetOf, asInt_of_isInt (by omega)]
  have hwanted : asLong (j - i + 1) = j - i + 1 := asLong_of_isLong (by omega)
  have hcount : posExtrCount n i j = min (j.toNat - offsetOf i) (n - offsetOf i) := by
    simp only [posExtrCount, hwanted]
    split
    · next h =>
      rw [asInt_of_isInt (by omega)]
      omega
    · next h => omega
  rw [text_part hnull hcount, posExtrOf, List.drop_take, ho]

theorem lenExtr_plain {i l : Int} (hi : -2 ^ 31 ≤ i ∧ i < 2 ^ 31) (hl : -2 ^ 31 ≤ l) :
    text m (p + offsetOf i) (lenExtrCount n i l) = lenExtrOf (bytesAt m p n) i l := by
  have ho : offsetOf i = (i - 1).toNat := by rw [offsetOf, asInt_of_isInt hi]
  have hcount : lenExtrCount n i l = min l.toNat (n - offsetOf i) := by
    simp only [lenExtrCount]
    split
    · next h =>
      rw [asInt_of_isInt (by omega)]
      omega
    · next h => omega
  rw [text_part hnull hcount, lenExtrOf, ho]

theorem right_plain {i : Int} (hi : -2 ^ 31 < i) (hpast : i ≤ n) :
    text m (p + rightOffset i) (n - rightOffset i) = rightOf (bytesAt m p n) i := by
  have ho : rightOffset i = (i - 1).toNat := by rw [rightOffset, asInt_of_isInt (by omega)]
  rw [text_part hnull (Nat.min_self _).symm, rightOf, ho, List.take_of_length_le]
  rw [List.length_drop, length_bytesAt]

end parts

/-- Two strings look alike in `room` bytes. -/
def Alike (room : Nat) (s t : List Byte) : Prop := padded room s = padded room t

/-- When each routine meets its promise on a fixed-length destination `d`, for the source text of
`n` bytes at `p`, any positions `i`, `j`, any length `l` and any text for `str$copy_r`. The second
alternatives are about positions that an `int` does not hold: what they select instead happens to
look the same. -/
structure FixedExact (σ : Store) (d source : Descriptor) (n : Nat) (p : Nat) (i j l : BitVec 64) :
    Prop where
  copyR : ∀ (k : BitVec 16) src,
    LeavesFixed d (text σ.memory src k.toNat) (strCopyR place d k src σ)
  left : LeavesFixed d (leftOf (bytesAt σ.memory p n) j.toInt) (strLeft place d source j σ) ↔
    0 ≤ j.toInt ∨ Alike d.wLength.toNat (text σ.memory p ((asInt j.toInt).toNat % 65536)) []
  posExtr : LeavesFixed d (posExtrOf (bytesAt σ.memory p n) i.toInt j.toInt)
      (strPosExtr place d source i j σ) ↔
    ((1 ≤ i.toInt ∧ i.toInt < 2 ^ 31) ∧ i.toInt ≤ j.toInt + 2 ^ 31) ∨
      Alike d.wLength.toNat
        (text σ.memory (p + offsetOf i.toInt) (posExtrCount n i.toInt j.toInt))
        (posExtrOf (bytesAt σ.memory p n) i.toInt j.toInt)
  lenExtr : LeavesFixed d (lenExtrOf (bytesAt σ.memory p n) i.toInt l.toInt)
      (strLenExtr place d source i l σ) ↔
    ((-2 ^ 31 ≤ i.toInt ∧ i.toInt < 2 ^ 31) ∧ -2 ^ 31 ≤ l.toInt) ∨
      Alike d.wLength.toNat
        (text σ.memory (p + offsetOf i.toInt) (lenExtrCount n i.toInt l.toInt))
        (lenExtrOf (bytesAt σ.memory p n) i.toInt l.toInt)
  right : LeavesFixed d (rightOf (bytesAt σ.memory p n) i.toInt)
      (strRight place d source i σ) ↔
    i.toInt ≤ n ∧ BitVec.ofInt 16 ((n : Int) - rightOffset i.toInt) = d.wLength ∧
      (-2 ^ 31 < i.toInt ∨ Alike d.wLength.toNat
        (text σ.memory (p + rightOffset i.toInt) (n - rightOffset i.toInt))
        (rightOf (bytesAt σ.memory p n) i.toInt))
  concat : ∀ items s, ¬ LeavesFixed d s (strConcat place d items σ)

/-- **Fixed-length destinations.** `str$copy_r` always keeps the descriptor and fills the buffer;
so do the extractions at positions an `int` holds, `str$pos_extr` from position 1 on;
`str$right` only when the rest of the source is as long as the destination; `str$concat`
never. -/
theorem fixed_destinations (σ : Store) (d source : Descriptor) (n : BitVec 16) (p : Nat)
    (i j l : BitVec 64) (hd : d.bClass = .s) (hp : d.aPointer ≠ 0)
    (hs : strAnalyzeSdesc σ.memory source = .ok (n, p)) :
    FixedExact place σ d source n.toNat p i j l := by
  have hnull : p = 0 → n.toNat = 0 := by
    rintro rfl
    rw [strAnalyzeSdesc_null hs]
    rfl
  have hn := n.isLt
  have hj := j.toInt_lt
  refine ⟨?_, ?_, ?_, ?_, ?_, ?_⟩
  · intro k src
    exact (leavesFixed_copy_iff place hd hp _ _ _ _).mpr rfl
  · rw [leavesFixed_left_iff place hd hp hs]
    by_cases he : 0 ≤ j.toInt
    · simp only [left_plain hnull hn he, he, true_or]
    · have hmin : min (n.toNat : Int) j.toInt = j.toInt := by omega
      have hempty : leftOf (bytesAt σ.memory p n.toNat) j.toInt = [] := by
        rw [leftOf, Int.toNat_of_nonpos (by omega), List.take_zero]
      rw [hmin, hempty, Alike, or_iff_right he]
  · rw [leavesFixed_posExtr_iff place hd hp hs, Alike, iff_or_self]
    rintro ⟨hi, hij⟩
    rw [posExtr_plain hnull hn hi hij (by omega)]
  · rw [leavesFixed_lenExtr_iff place hd hp hs, Alike, iff_or_self]
    rintro ⟨hi, hl⟩
    rw [lenExtr_plain hnull hn hi hl]
  · rw [leavesFixed_right_iff place hd hp hs, Alike]
    constructor
    · rintro ⟨hle, hlength, hbuffer⟩
      exact ⟨hle, hlength, Or.inr hbuffer⟩
    · rintro ⟨hle, hlength, hplain | hbuffer⟩
      · exact ⟨hle, hlength, by rw [right_plain hnull hn hplain hle]⟩
      · exact ⟨hle, hlength, hbuffer⟩
  · intro items s
    exact not_leavesFixed_concat place hd hp s items σ

/-- `ABC` at 2000, for a destination of three bytes at 1000 and the whole of the source. -/
def abc : Store := ⟨fun a => BitVec.ofNat 8 (a - 2000 + 65), []⟩

theorem fixed_destinations_abc :
    FixedExact (fun _ _ => 0) abc ⟨3, .s, 1000⟩ ⟨3, .s, 2000⟩ 3 2000 1 3 3 :=
  fixed_destinations (fun _ _ => 0) abc ⟨3, .s, 1000⟩ ⟨3, .s, 2000⟩ 3 2000 1 3 3 rfl (by decide)
    rfl

/-- `str$right` from position 2 of `ABC` gives a destination of five bytes the length 2. -/
theorem right_changes_length :
    ¬ LeavesFixed ⟨5, .s, 1000⟩ (rightOf (bytesAt abc.memory 2000 3) 2)
      (strRight (fun _ _ => 0) ⟨5, .s, 1000⟩ ⟨3, .s, 2000⟩ 2 abc) := by
  rintro ⟨out, hout, hlength, -⟩
  have hright : (strRight (fun _ _ => 0) ⟨5, .s, 1000⟩ ⟨3, .s, 2000⟩ 2 abc).map
      (fun out => out.destination.wLength) = .ok 2 := rfl
  rw [hout, Except.map, hlength] at hright
  cases hright

end FreeVMS.Rtl.Str
