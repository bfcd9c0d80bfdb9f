import FreeVMS.Lib.Pieces
import FreeVMS.Rtl.StrSearch
import FreeVMS.Rtl.StrSubstring

/-!
# Elements

`str$element` counts delimiters with a `short`, which comes after 32767 to -32768, in front of the
source. Before that it looks for the delimiter with `strstr`, which goes on behind both strings up to
a NUL. What is left of `result1` when nothing is copied is not set at all: here it is a parameter.
-/

namespace FreeVMS.Rtl.Str

open Run (Ends)
open Lib.Pieces

def strInvdelim : Nat := 2392592

def strNoelem : Nat := 2392600

def strIllstrspe : Nat := 2393105

/-- What a `short` keeps of an `int`. -/
def asShort (x : Int) : Int := x.bmod (2 ^ 16)

/-- What a `char` keeps of an `int`. -/
def asChar (x : Int) : Int := x.bmod (2 ^ 8)

/-- The bytes from `p` on in front of the first NUL, if there is one among the first `reach`. -/
def cString (m : Memory) (p : Nat) : Nat → Option (List Byte)
  | 0 => none
  | reach + 1 => if m p = 0 then some [] else (cString m (p + 1) reach).map (m p :: ·)

/-- `strstr`, with no result when it goes on up to the end of memory. -/
def strstr (m : Memory) (reach haystack needle : Nat) : Option Bool := do
  let s ← cString m haystack reach
  let u ← cString m needle reach
  return decide (u <:+: s)

/-- `isdigit` -/
def isdigit (c : Int) : Bool := decide (48 ≤ c ∧ c ≤ 57)

/-- `s2_ptr[i]` -/
def charAt (m : Memory) (s2 : Nat) (i : Int) : Option Byte := look m (fun _ => true) (s2 + i)

/-- The loop that looks for the start of the element. There is no result before it has ended. -/
def startLoop (m : Memory) (s2 s2Length : Nat) (delimiter : Byte) :
    Nat → Int → Int → Option (Int × Int)
  | 0, _, _ => none
  | fuel + 1, elementNumber, resPtr =>
    if 0 < elementNumber ∧ resPtr < s2Length then do
      let c ← charAt m s2 resPtr
      let elementNumber := if c = delimiter then elementNumber - 1 else elementNumber
      startLoop m s2 s2Length delimiter fuel elementNumber (asShort (resPtr + 1))
    else some (elementNumber, resPtr)

/-- The loop that looks for the end of the element. -/
def lengthLoop (m : Memory) (s2 s2Length : Nat) (delimiter : Byte) (resPtr : Int) :
    Nat → Int → Option Int
  | 0, _ => none
  | fuel + 1, resLength =>
    if resPtr + resLength < s2Length then do
      let c ← charAt m s2 (resPtr + resLength)
      if c ≠ delimiter then lengthLoop m s2 s2Length delimiter resPtr fuel (asShort (resLength + 1))
      else some resLength
    else some resLength

/-- The copy at the end of `str$element`. -/
def elementCopy (place : Store → Nat → Nat) (result1 : Nat) (d : Descriptor) (s2 s2Length : Nat)
    (result : Nat) (resPtr resLength : Int) (σ : Store) : Except Fault (Option Outcome) :=
  if resPtr < s2Length then do
    let out ← strCopyR place d (BitVec.ofInt 16 resLength) (s2 + resPtr).toNat σ
    return some { out with status := if out.status = strNormal then normal else result }
  else .ok (some ⟨if result1 = strNormal then normal else result, d, σ⟩)

/-- `str$element` from the search on. -/
def elementFrom (place : Store → Nat → Nat) (result1 fuel : Nat) (d : Descriptor)
    (s2 s2Length : Nat) (delimiter : Byte) (elementNumber : Int) (σ : Store) :
    Except Fault (Option Outcome) :=
  match startLoop σ.memory s2 s2Length delimiter fuel elementNumber 0 with
  | none => .ok none
  | some (elementNumber, resPtr) =>
    if elementNumber ≠ 0 then
      elementCopy place result1 d s2 s2Length strNoelem resPtr 0 σ
    else
      match lengthLoop σ.memory s2 s2Length delimiter resPtr fuel 0 with
      | none => .ok none
      | some resLength => elementCopy place result1 d s2 s2Length strNormal resPtr resLength σ

/-- `str$element` -/
def strElement (place : Store → Nat → Nat) (result1 reach fuel : Nat) (d : Descriptor)
    (findElementNumber : BitVec 64) (delimiterString sourceString : Descriptor) (σ : Store) :
    Except Fault (Option Outcome) := do
  let elementNumber := asInt findElementNumber.toInt
  if isdigit (asChar elementNumber + 48) = false then return some ⟨strIllstrspe, d, σ⟩
  let elementNumber := if elementNumber < 0 then 0 else elementNumber
  let _ ← strAnalyzeSdesc σ.memory d
  let (s2Length, s2) ← strAnalyzeSdesc σ.memory sourceString
  let (s3Length, s3) ← strAnalyzeSdesc σ.memory delimiterString
  let found := if s2 ≠ 0 ∧ s3 ≠ 0 then strstr σ.memory reach s2 s3 else some true
  if found = none then return none
  if found = some false then return some ⟨normal, d, σ⟩
  if s3Length ≠ 1 then return some ⟨strInvdelim, d, σ⟩
  elementFrom place result1 fuel d s2 s2Length.toNat (σ.memory s3) elementNumber σ

variable {m : Memory} {s2 s2Length : Nat} {c : Byte} {s w rest : List Byte} {p : Nat}

/-! ## The two loops -/

theorem asShort_of_isShort {x : Int} (hlow : -32768 ≤ x) (hhigh : x < 32768) : asShort x = x :=
  Int.bmod_eq_of_le (by omega) (by omega)

theorem charAt_of_eq {i : Int} {a : Nat} (h : (s2 : Int) + i = a) : charAt m s2 i = some (m a) := by
  rw [charAt, h]
  exact look_of_readable rfl

/-- One round of the loop. -/
theorem startLoop_step {r e : Int} {x : Byte} (fuel : Nat) (hchar : charAt m s2 r = some x)
    (he : 0 < e) (hr : r < s2Length) :
    startLoop m s2 s2Length c (fuel + 1) e r =
      startLoop m s2 s2Length c fuel (if x = c then e - 1 else e) (asShort (r + 1)) := by
  rw [startLoop, if_pos ⟨he, hr⟩, hchar]
  rfl

/-- What is still wanted behind a character. -/
theorem wanted_cons (e : Int) (c x : Byte) (w : List Byte) :
    (if x = c then e - 1 else e) - (w.count c : Int) = e - ((x :: w).count c : Int) := by
  by_cases hx : x = c
  · subst hx
    rw [if_pos rfl, List.count_cons_self]
    omega
  · rw [if_neg hx, List.count_cons_of_ne hx]

/-- As long as more delimiters are wanted the loop goes through a part of memory. -/
theorem startLoop_run {w : List Byte} {r e : Int} (fuel : Nat)
    (hchar : ∀ i (h : i < w.length), charAt m s2 (r + i) = some w[i])
    (hlow : -32768 ≤ r) (hr : r < 32768) (hhigh : r + w.length ≤ 32768)
    (hlength : r + w.length ≤ s2Length)
    (hcount : ∀ i, i < w.length → ((w.take i).count c : Int) < e) :
    startLoop m s2 s2Length c (w.length + fuel) e r =
      startLoop m s2 s2Length c fuel (e - w.count c) (asShort (r + w.length)) := by
  induction w generalizing r e with
  | nil =>
    rw [List.length_nil, List.count_nil, Nat.zero_add]
    simp only [Nat.cast_zero, Int.add_zero, Int.sub_zero]
    rw [asShort_of_isShort hlow hr]
  | cons x w ih =>
    rw [List.length_cons] at hhigh hlength
    have hfirst := hchar 0 (Nat.succ_pos _)
    simp only [Nat.cast_zero, Int.add_zero, List.getElem_cons_zero] at hfirst
    have he := hcount 0 (Nat.succ_pos _)
    rw [List.take_zero, List.count_nil, Nat.cast_zero] at he
    have hfuel : (x :: w).length + fuel = w.length + fuel + 1 := by
      rw [List.length_cons]
      omega
    have htail := wanted_cons e c x w
    rw [hfuel, startLoop_step _ hfirst he (by omega)]
    cases w with
    | nil =>
      rw [← htail, List.length_nil, List.count_nil, Nat.zero_add, Nat.cast_zero, Int.sub_zero]
      rfl
    | cons y w =>
      rw [List.length_cons] at hhigh hlength
      have hnext : asShort (r + 1) = r + 1 := asShort_of_isShort (by omega) (by omega)
      rw [hnext, ih (r := r + 1) ?_ (by omega) (by omega) ?_ ?_ ?_, htail]
      · have hend : r + 1 + ((y :: w).length : Int) = r + ((x :: y :: w).length : Int) := by
          rw [List.length_cons, List.length_cons, List.length_cons]
          omega
        rw [hend]
      · intro i hi
        have h := hchar (i + 1) (Nat.succ_lt_succ hi)
        rw [List.getElem_cons_succ] at h
        have hplace : r + 1 + (i : Int) = r + ((i + 1 : Nat) : Int) := by omega
        rw [hplace]
        exact h
      · rw [List.length_cons]
        omega
      · rw [List.length_cons]
        omega
      · intro i hi
        have h := hcount (i + 1) (Nat.succ_lt_succ hi)
        rw [List.take_succ_cons] at h
        have hwanted := wanted_cons e c x ((y :: w).take i)
        omega

/-- The loop ends when there are no more delimiters wanted, or at the end of the source. -/
theorem startLoop_stop {r e : Int} (fuel : Nat) (h : ¬ (0 < e ∧ r < s2Length)) :
    startLoop m s2 s2Length c (fuel + 1) e r = some (e, r) := by
  rw [startLoop, if_neg h]

/-- A source of more than 32767 characters is never left at its end. -/
theorem startLoop_end {e r e' r' : Int} {fuel : Nat} (hlong : 32768 ≤ s2Length) (hr : r < 32768)
    (he : 0 ≤ e) (h : startLoop m s2 s2Length c fuel e r = some (e', r')) :
    e' = 0 ∧ r' < 32768 := by
  induction fuel generalizing e r with
  | zero => exact nomatch h
  | succ fuel ih =>
    rw [startLoop] at h
    split at h
    · next hmore =>
      cases hc : charAt m s2 r with
      | none =>
        rw [hc] at h
        exact nomatch h
      | some x =>
        rw [hc] at h
        refine ih ?_ ?_ h
        · have hlt := @Int.bmod_lt (r + 1) (2 ^ 16) (by decide)
          unfold asShort
          omega
        · split <;> omega
    · next hstop =>
      obtain ⟨rfl, rfl⟩ := Prod.mk.inj (Option.some.inj h)
      omega

/-- Up to a delimiter the loop goes through a part of memory. -/
theorem lengthLoop_run {r : Int} (fuel : Nat) {k l : Nat} (hl : k + l ≤ 32768)
    (hchar : ∀ i, k ≤ i → i < k + l → r + i < s2Length ∧ ∃ x, charAt m s2 (r + i) = some x ∧ x ≠ c)
    (hk : k < 32768) :
    lengthLoop m s2 s2Length c r (l + fuel) k = lengthLoop m s2 s2Length c r fuel (asShort (k + l)) := by
  induction l generalizing k with
  | zero =>
    rw [Nat.zero_add, Nat.cast_zero, Int.add_zero, asShort_of_isShort (by omega) (by omega)]
  | succ l ih =>
    obtain ⟨hlt, x, hx, hne⟩ := hchar k (Nat.le_refl k) (by omega)
    have hfuel : l + 1 + fuel = l + fuel + 1 := by omega
    rw [hfuel, lengthLoop, if_pos hlt, hx]
    simp only [Option.bind_eq_bind, Option.bind_some, if_pos hne]
    cases l with
    | zero =>
      rw [Nat.zero_add]
      rfl
    | succ l =>
      have hnext : asShort ((k : Int) + 1) = ((k + 1 : Nat) : Int) := by
        rw [asShort_of_isShort (by omega) (by omega)]
        rfl
      have hend : ((k : Int) + ((l + 1 + 1 : Nat) : Int)) = ((k + 1 : Nat) : Int) + ((l + 1 : Nat) : Int) := by
        omega
      rw [hnext, ih (k := k + 1) (by omega) (fun i hi hlt => hchar i (by omega) (by omega)) (by omega),
        hend]

/-- A round of the loop ends it or goes on behind a character. -/
theorem lengthLoop_round {r l l' : Int} {fuel : Nat}
    (h : lengthLoop m s2 s2Length c r (fuel + 1) l = some l') :
    (l' = l ∧ (r + l < s2Length → charAt m s2 (r + l) = some c)) ∨
      lengthLoop m s2 s2Length c r fuel (asShort (l + 1)) = some l' := by
  rw [lengthLoop] at h
  split at h
  · cases hx : charAt m s2 (r + l) with
    | none =>
      rw [hx] at h
      cases h
    | some x =>
      rw [hx] at h
      simp only [Option.bind_eq_bind, Option.bind_some] at h
      split at h
      · exact Or.inr h
      · next hc =>
        obtain rfl := Option.some.inj h
        exact Or.inl ⟨rfl, fun _ => congrArg some (not_not.mp hc)⟩
  · next hstop =>
    obtain rfl := Option.some.inj h
    exact Or.inl ⟨rfl, fun hlt => absurd hlt hstop⟩

/-- Where the loop ends there is a delimiter or nothing more. -/
theorem lengthLoop_end {r l l' : Int} {fuel : Nat}
    (h : lengthLoop m s2 s2Length c r fuel l = some l') :
    r + l' < s2Length → charAt m s2 (r + l') = some c := by
  induction fuel generalizing l with
  | zero => exact nomatch h
  | succ fuel ih =>
    rcases lengthLoop_round h with ⟨rfl, hstop⟩ | hmore
    · exact hstop
    · exact ih hmore

theorem asShort_range (x : Int) : -32768 ≤ asShort x ∧ asShort x < 32768 := by
  have hle := @Int.le_bmod x (2 ^ 16) (by decide)
  have hlt := @Int.bmod_lt x (2 ^ 16) (by decide)
  unfold asShort
  omega

theorem lengthLoop_range {r l l' : Int} {fuel : Nat} (hl : -32768 ≤ l ∧ l < 32768)
    (h : lengthLoop m s2 s2Length c r fuel l = some l') : -32768 ≤ l' ∧ l' < 32768 := by
  induction fuel generalizing l with
  | zero => exact nomatch h
  | succ fuel ih =>
    rcases lengthLoop_round h with ⟨rfl, -⟩ | hmore
    · exact hl
    · exact ih (asShort_range _) hmore

/-- A loop that has ended has ended. -/
theorem startLoop_mono {e r : Int} {fuel more : Nat} {x : Int × Int}
    (h : startLoop m s2 s2Length c fuel e r = some x) :
    startLoop m s2 s2Length c (fuel + more) e r = some x := by
  induction fuel generalizing e r with
  | zero => exact nomatch h
  | succ fuel ih =>
    have hfuel : fuel + 1 + more = fuel + more + 1 := by omega
    rw [startLoop] at h
    rw [hfuel, startLoop]
    split
    · next hmore =>
      rw [if_pos hmore] at h
      cases hx : charAt m s2 r with
      | none =>
        rw [hx] at h
        exact nomatch h
      | some y =>
        rw [hx] at h
        exact ih h
    · next hstop =>
      rw [if_neg hstop] at h
      exact h

theorem lengthLoop_mono {r l l' : Int} {fuel more : Nat}
    (h : lengthLoop m s2 s2Length c r fuel l = some l') :
    lengthLoop m s2 s2Length c r (fuel + more) l = some l' := by
  induction fuel generalizing l with
  | zero => exact nomatch h
  | succ fuel ih =>
    have hfuel : fuel + 1 + more = fuel + more + 1 := by omega
    rw [lengthLoop] at h
    rw [hfuel, lengthLoop]
    split
    · next hmore =>
      rw [if_pos hmore] at h
      cases hx : charAt m s2 (r + l) with
      | none =>
        rw [hx] at h
        exact nomatch h
      | some y =>
        rw [hx] at h
        simp only [Option.bind_eq_bind, Option.bind_some] at h ⊢
        split
        · next hne =>
          rw [if_pos hne] at h
          exact ih h
        · next heq =>
          rw [if_neg heq] at h
          exact h
    · next hstop =>
      rw [if_neg hstop] at h
      exact h

theorem startLoop_unique {e r : Int} {fuel fuel' : Nat} {x x' : Int × Int}
    (h : startLoop m s2 s2Length c fuel e r = some x)
    (h' : startLoop m s2 s2Length c fuel' e r = some x') : x = x' := by
  have hmore := @startLoop_mono m s2 s2Length c e r fuel fuel' x h
  have hmore' := @startLoop_mono m s2 s2Length c e r fuel' fuel x' h'
  rw [Nat.add_comm, hmore] at hmore'
  exact Option.some.inj hmore'

theorem lengthLoop_unique {r l x x' : Int} {fuel fuel' : Nat}
    (h : lengthLoop m s2 s2Length c r fuel l = some x)
    (h' : lengthLoop m s2 s2Length c r fuel' l = some x') : x = x' := by
  have hmore := @lengthLoop_mono m s2 s2Length c r l x fuel fuel' h
  have hmore' := @lengthLoop_mono m s2 s2Length c r l x' fuel' fuel h'
  rw [Nat.add_comm, hmore] at hmore'
  exact Option.some.inj hmore'

/-! ## Sources that a `short` can go through -/

section elements

variable {place : Store → Nat → Nat} {d : Descriptor} {σ : Store} {n result1 : Nat}

/-- Both statuses are 1. -/
theorem status_normal (status : Nat) : (if status = strNormal then normal else strNormal) = normal := by
  split <;> rfl

theorem charAt_text (hs : bytesAt m p s.length = s) {i : Nat} (hi : i < s.length) :
    charAt m p i = some s[i] := by
  rw [charAt_of_eq (Int.natCast_add p i).symm, (bytesAt_eq_iff.mp hs).2 i hi]

/-- The search goes through what is in front of the element. -/
theorem startLoop_behind (hs : bytesAt m p s.length = s) (hbehind : Behind c n s w rest)
    (hw : w.length ≤ 32767) (fuel : Nat) :
    startLoop m p s.length c (w.length + (fuel + 1)) n 0 = some (0, (w.length : Int)) := by
  have hlength : s.length = w.length + rest.length := by
    rw [← hbehind.append, List.length_append]
  have hrun := @startLoop_run m p s.length c w 0 n (fuel + 1) (fun i hi => ?_) (by decide) (by decide)
    (by omega) (by omega) fun i hi => Int.ofNat_lt.mpr (hbehind.first i hi)
  · rw [hrun, hbehind.count, Int.sub_self, Int.zero_add,
      asShort_of_isShort (by omega) (by omega)]
    exact startLoop_stop fuel fun h => absurd h.1 (by decide)
  · have hi' : i < s.length := by omega
    rw [Int.zero_add, charAt_text hs hi']
    simp only [← hbehind.append, List.getElem_append_left hi]

/-- There are not enough delimiters. -/
theorem elementFrom_none (hs : bytesAt σ.memory p s.length = s) (hshort : s.length ≤ 32767)
    (hcount : s.count c < n) :
    elementFrom place result1 (s.length + 1) d p s.length c n σ =
      .ok (some ⟨if result1 = strNormal then normal else strNoelem, d, σ⟩) := by
  have hrun := @startLoop_run σ.memory p s.length c s 0 n 1 (fun i hi => ?_) (by decide) (by decide)
    (by omega) (by omega) fun i _ => ?_
  · have hzero : (n : Int) - s.count c ≠ 0 := by omega
    have hend : ¬ (s.length : Int) < s.length := Int.lt_irrefl _
    rw [Int.zero_add, asShort_of_isShort (by omega) (by omega),
      startLoop_stop 0 fun h => absurd h.2 hend] at hrun
    simp only [elementFrom, hrun, if_pos hzero, elementCopy, if_neg hend]
  · rw [Int.zero_add, charAt_text hs hi]
  · have hle : (s.take i).count c ≤ s.count c := (List.take_sublist i s).count_le c
    omega

/-- The last element is empty: nothing is copied. -/
theorem elementFrom_last (hs : bytesAt σ.memory p s.length = s) (hbehind : Behind c n s s [])
    (hshort : s.length ≤ 32767) :
    elementFrom place result1 (s.length + 1) d p s.length c n σ = .ok (some ⟨normal, d, σ⟩) := by
  have hstart := startLoop_behind hs hbehind hshort 0
  have hend : ¬ (s.length : Int) < s.length := Int.lt_irrefl _
  have hstop : lengthLoop σ.memory p s.length c s.length (s.length + 1) 0 = some 0 := by
    rw [lengthLoop, if_neg (by omega)]
  rw [Nat.zero_add] at hstart
  simp only [elementFrom, hstart, ne_eq, not_true_eq_false, if_false, hstop, elementCopy, if_neg hend,
    status_normal]

/-- Up to the end of the piece there are no delimiters. -/
theorem piece_char (hs : bytesAt m p s.length = s) (hbehind : Behind c n s w rest) {i : Nat}
    (hi : i < (rest.takeWhile (· ≠ c)).length) :
    (w.length : Int) + i < s.length ∧
      ∃ x, charAt m p ((w.length : Int) + i) = some x ∧ x ≠ c := by
  have hbefore : rest.takeWhile (· ≠ c) <+: rest := List.takeWhile_prefix _
  have hlength : s.length = w.length + rest.length := by
    rw [← hbehind.append, List.length_append]
  have hi' : i < rest.length := Nat.lt_of_lt_of_le hi hbefore.length_le
  have hplace : (w.length : Int) + i = ((w.length + i : Nat) : Int) := (Int.natCast_add _ _).symm
  refine ⟨by omega, rest[i], ?_, ?_⟩
  · rw [hplace, charAt_text hs (by omega)]
    simp only [← hbehind.append, List.getElem_append_right (Nat.le_add_right _ _),
      Nat.add_sub_cancel_left]
  · have hmem := List.mem_takeWhile_imp (List.getElem_mem hi)
    rw [hbefore.getElem hi] at hmem
    simpa using hmem

/-- Behind the piece there is a delimiter or nothing more. -/
theorem piece_end (hs : bytesAt m p s.length = s) (hbehind : Behind c n s w rest)
    (hlt : (w.length : Int) + (rest.takeWhile (· ≠ c)).length < s.length) :
    charAt m p ((w.length : Int) + (rest.takeWhile (· ≠ c)).length) = some c := by
  have hlength : s.length = w.length + rest.length := by
    rw [← hbehind.append, List.length_append]
  have hi : (rest.takeWhile (· ≠ c)).length < rest.length := by omega
  have hplace : (w.length : Int) + (rest.takeWhile (· ≠ c)).length =
      ((w.length + (rest.takeWhile (· ≠ c)).length : Nat) : Int) := (Int.natCast_add _ _).symm
  rw [hplace, charAt_text hs (by omega)]
  simp only [← hbehind.append, List.getElem_append_right (Nat.le_add_right _ _),
    Nat.add_sub_cancel_left, getElem_piece_end hi]

/-- What is done with an element that a `short` reaches. -/
theorem elementFrom_piece (hs : bytesAt σ.memory p s.length = s) (hbehind : Behind c n s w rest)
    (hw : w.length ≤ 32767) (hrest : rest ≠ []) {piece : List Byte}
    (hpiece : rest.takeWhile (· ≠ c) = piece) (hlength : piece.length ≤ 32767) :
    elementFrom place result1 (w.length + piece.length + 1) d p s.length c n σ =
      (strCopyR place d (BitVec.ofNat 16 piece.length) (p + w.length) σ >>= fun out =>
        pure (some { out with status := normal })) := by
  subst hpiece
  have hstart := startLoop_behind hs hbehind hw (rest.takeWhile (· ≠ c)).length
  have hrun := @lengthLoop_run σ.memory p s.length c w.length (w.length + 1) 0
    (rest.takeWhile (· ≠ c)).length (by omega)
    (fun i _ hi => piece_char hs hbehind (by omega)) (by decide)
  have hstop : lengthLoop σ.memory p s.length c w.length (w.length + 1)
      (rest.takeWhile (· ≠ c)).length = some ((rest.takeWhile (· ≠ c)).length : Int) := by
    rw [lengthLoop]
    split
    · next hlt =>
      rw [piece_end hs hbehind hlt]
      simp
    · rfl
  have hpos := List.length_pos_iff.mpr hrest
  have hlt : (w.length : Int) < s.length := by
    rw [← hbehind.append, List.length_append]
    omega
  rw [Nat.cast_zero, Int.zero_add, asShort_of_isShort (by omega) (by omega), hstop] at hrun
  have hfuel : (rest.takeWhile (· ≠ c)).length + (w.length + 1) =
      w.length + ((rest.takeWhile (· ≠ c)).length + 1) := by omega
  rw [hfuel] at hrun
  rw [Nat.add_assoc]
  simp only [elementFrom, hstart, ne_eq, not_true_eq_false, if_false, hrun, elementCopy, if_pos hlt,
    status_normal, BitVec.ofInt_natCast]
  rfl

/-- The result does not depend on how long the loops may take. -/
theorem elementFrom_unique {e : Int} {fuel fuel' : Nat} {out out' : Except Fault (Option Outcome)}
    (h : elementFrom place result1 fuel d s2 s2Length c e σ = out) (hout : out ≠ .ok none)
    (h' : elementFrom place result1 fuel' d s2 s2Length c e σ = out') (hout' : out' ≠ .ok none) :
    out = out' := by
  rw [elementFrom] at h h'
  cases hstart : startLoop σ.memory s2 s2Length c fuel e 0 with
  | none =>
    rw [hstart] at h
    exact absurd h.symm hout
  | some x =>
    cases hstart' : startLoop σ.memory s2 s2Length c fuel' e 0 with
    | none =>
      rw [hstart'] at h'
      exact absurd h'.symm hout'
    | some x' =>
      obtain rfl := startLoop_unique hstart hstart'
      obtain ⟨e', r⟩ := x
      rw [hstart] at h
      rw [hstart'] at h'
      by_cases hzero : e' = 0
      · simp only [hzero, ne_eq, not_true_eq_false, if_false] at h h'
        cases hend : lengthLoop σ.memory s2 s2Length c r fuel 0 with
        | none =>
          rw [hend] at h
          exact absurd h.symm hout
        | some l =>
          cases hend' : lengthLoop σ.memory s2 s2Length c r fuel' 0 with
          | none =>
            rw [hend'] at h'
            exact absurd h'.symm hout'
          | some l' =>
            obtain rfl := lengthLoop_unique hend hend'
            rw [hend] at h
            rw [hend'] at h'
            exact h.symm.trans h'
      · simp only [if_pos hzero] at h h'
        exact h.symm.trans h'

/-- Where the start of an element is found the result is success. -/
theorem elementFrom_success {e r : Int} {fuel fuel' : Nat} {out : Outcome}
    (hstart : startLoop σ.memory s2 s2Length c fuel' e 0 = some (0, r))
    (h : elementFrom place result1 fuel d s2 s2Length c e σ = .ok (some out)) :
    out.status = normal ∧ ∃ l, lengthLoop σ.memory s2 s2Length c r fuel 0 = some l ∧
      elementCopy place result1 d s2 s2Length strNormal r l σ = .ok (some out) := by
  rw [elementFrom] at h
  cases hstart' : startLoop σ.memory s2 s2Length c fuel e 0 with
  | none =>
    rw [hstart'] at h
    exact nomatch h
  | some x =>
    obtain rfl := startLoop_unique hstart hstart'
    rw [hstart'] at h
    simp only [ne_eq, not_true_eq_false, if_false] at h
    cases hend : lengthLoop σ.memory s2 s2Length c r fuel 0 with
    | none =>
      rw [hend] at h
      exact nomatch h
    | some l =>
      rw [hend] at h
      refine ⟨?_, l, rfl, h⟩
      simp only [elementCopy] at h
      split at h
      · cases hcopy : strCopyR place d (BitVec.ofInt 16 l) (s2 + r).toNat σ with
        | error fault =>
          rw [hcopy] at h
          exact nomatch h
        | ok copied =>
          rw [hcopy, ok_bind] at h
          obtain rfl := Option.some.inj (Except.ok.inj h)
          exact status_normal copied.status
      · obtain rfl := Option.some.inj (Except.ok.inj h)
        exact status_normal result1

/-- With a source of more than 32767 characters there is no other status than success. -/
theorem elementFrom_long {e : Int} {fuel : Nat} {out : Outcome} (hlong : 32768 ≤ s2Length)
    (he : 0 ≤ e) (h : elementFrom place result1 fuel d s2 s2Length c e σ = .ok (some out)) :
    out.status = normal := by
  cases hstart : startLoop σ.memory s2 s2Length c fuel e 0 with
  | none =>
    rw [elementFrom, hstart] at h
    exact nomatch h
  | some x =>
    obtain ⟨e', r⟩ := x
    obtain ⟨rfl, -⟩ := startLoop_end hlong (by decide) he hstart
    exact (elementFrom_success hstart h).1

end elements

end FreeVMS.Rtl.Str
