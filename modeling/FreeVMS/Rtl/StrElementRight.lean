import FreeVMS.Rtl.StrElement

/-!
# When elements are right

What `str$element` does depends on the two strings, on what comes behind them up to a NUL, and on what
is left in `result1`. All that may be said for these is said in every world that has them: whatever is
in front of the source, and whatever is in the destination.
-/

namespace FreeVMS.Rtl.Str

open Run (Ends)
open Lib.Pieces

/-- The C string that begins with `s`, when `tail` is what comes behind `s` up to a NUL. -/
def cText (s : List Byte) (tail : Option (List Byte)) : Option (List Byte) :=
  if 0 ∈ s then some (s.takeWhile (· ≠ 0)) else tail.map (s ++ ·)

/-- The source is the string `s` at `p`, with `sTail` behind it, and the delimiter is the character
`c`, with `cTail` behind it. -/
structure ElementWorld (m : Memory) (reach : Nat) (d source delimiter : Descriptor) (p q : Nat)
    (s : List Byte) (sTail : Option (List Byte)) (c : Byte) (cTail : Option (List Byte)) : Prop where
  destination : ∃ r, strAnalyzeSdesc m d = .ok r
  source : Text m source p s
  delimiter : Text m delimiter q [c]
  sourceEnd : p ≠ 0 → cString m p reach = cText s sTail
  delimiterEnd : cString m q reach = cText [c] cTail

/-- The call does what `str$copy_r` does with the piece in the source, and returns success. -/
def Stored (place : Store → Nat → Nat) (d : Descriptor) (p : Nat) (s piece : List Byte) (σ : Store)
    (call : Except Fault (Option Outcome)) : Prop :=
  ∃ o, o + piece.length ≤ s.length ∧ (s.drop o).take piece.length = piece ∧
    call = (strCopyR place d (BitVec.ofNat 16 piece.length) (p + o) σ >>= fun out =>
      pure (some { out with status := normal }))

/-- In every world the call stores the piece number `n`, or says that there is none. -/
def ElementRight (s : List Byte) (sTail : Option (List Byte)) (c : Byte) (cTail : Option (List Byte))
    (n : BitVec 64) (result1 : Nat) : Prop :=
  ∀ place σ reach d source delimiter p q,
    ElementWorld σ.memory reach d source delimiter p q s sTail c cTail →
      ∃ fuel,
        (∀ piece, (s.splitOn c)[n.toInt.toNat]? = some piece →
          Stored place d p s piece σ
            (strElement place result1 reach fuel d n delimiter source σ)) ∧
        ((s.splitOn c)[n.toInt.toNat]? = none →
          strElement place result1 reach fuel d n delimiter source σ =
            .ok (some ⟨strNoelem, d, σ⟩))

/-- `strstr` finds the delimiter. -/
def NeedleFound (s : List Byte) (sTail : Option (List Byte)) (c : Byte)
    (cTail : Option (List Byte)) : Prop :=
  ∃ haystack needle, cText s sTail = some haystack ∧ cText [c] cTail = some needle ∧
    needle <:+: haystack

/-- The condition: the number passes for a digit, the delimiter is found, and either there are too few
delimiters in a source that is not too long, and `result1` is not success, or the element starts in
the source, and neither its start nor its length is more than a `short`. -/
def ElementCondition (s : List Byte) (sTail : Option (List Byte)) (c : Byte)
    (cTail : Option (List Byte)) (n : Int) (result1 : Nat) : Prop :=
  n % 256 ≤ 9 ∧ NeedleFound s sTail c cTail ∧
    ((s.length ≤ 32767 ∧ (s.count c : Int) < asInt n ∧ result1 ≠ strNormal) ∨
      (n < 2 ^ 31 ∧ ∃ w rest, Behind c n.toNat s w rest ∧ rest ≠ [] ∧ w.length ≤ 32767 ∧
        (rest.takeWhile (· ≠ c)).length ≤ 32767))

variable {place : Store → Nat → Nat} {σ : Store} {reach : Nat} {d source delimiter : Descriptor}
  {p q : Nat} {s : List Byte} {sTail cTail : Option (List Byte)} {c : Byte} {n : BitVec 64}
  {result1 fuel : Nat}

/-! ## The checks -/

theorem isdigit_iff (n : Int) : isdigit (asChar (asInt n) + 48) = true ↔ n % 256 ≤ 9 := by
  have hchar : asChar (asInt n) = n.bmod (2 ^ 8) := by
    rw [asChar, asInt]
    exact Int.bmod_bmod_of_dvd (by decide)
  have hvalue : n.bmod (2 ^ 8) = if n % 256 < 128 then n % 256 else n % 256 - 256 := by
    rw [Int.bmod_def]
    rfl
  rw [isdigit, decide_eq_true_eq, hchar, hvalue]
  split <;> omega

/-- What the check for the delimiter comes to. -/
def searched (s : List Byte) (sTail : Option (List Byte)) (c : Byte) (cTail : Option (List Byte)) :
    Option Bool := do
  let haystack ← cText s sTail
  let needle ← cText [c] cTail
  return decide (needle <:+: haystack)

theorem needleFound_iff : NeedleFound s sTail c cTail ↔ searched s sTail c cTail = some true := by
  unfold NeedleFound searched
  cases hs : cText s sTail with
  | none => simp
  | some haystack =>
    cases hc : cText [c] cTail with
    | none => simp
    | some needle => simp

theorem Text.address_ne_zero {m : Memory} (h : Text m source p s) (hs : s ≠ []) : p ≠ 0 := by
  rintro rfl
  have hzero := strAnalyzeSdesc_null h.analyzed
  have hlength := h.toNat_length
  rw [hzero] at hlength
  exact hs (List.eq_nil_of_length_eq_zero hlength.symm)

/-- `str$element` after its checks. -/
theorem strElement_eq (hw : ElementWorld σ.memory reach d source delimiter p q s sTail c cTail)
    (hdigit : n.toInt % 256 ≤ 9) (hfound : p ≠ 0 → searched s sTail c cTail = some true) :
    strElement place result1 reach fuel d n delimiter source σ =
      elementFrom place result1 fuel d p s.length c (max (asInt n.toInt) 0) σ := by
  obtain ⟨r, hr⟩ := hw.destination
  have hq : q ≠ 0 := hw.delimiter.address_ne_zero (List.cons_ne_nil _ _)
  have hisdigit : ¬ isdigit (asChar (asInt n.toInt) + 48) = false := by
    rw [(isdigit_iff n.toInt).mpr hdigit]
    decide
  have hstrstr : (if p ≠ 0 ∧ q ≠ 0 then strstr σ.memory reach p q else some true) = some true := by
    split
    · next h =>
      rw [strstr, hw.sourceEnd h.1, hw.delimiterEnd]
      exact hfound h.1
    · rfl
  have hone : BitVec.ofNat 16 [c].length = 1 := rfl
  have hdelimiter : σ.memory q = c := by
    have hbytes := (bytesAt_eq_iff.mp hw.delimiter.bytes).2 0 (Nat.succ_pos 0)
    exact hbytes
  have hnumber : (if asInt n.toInt < 0 then 0 else asInt n.toInt) = max (asInt n.toInt) 0 := by
    split <;> omega
  simp only [strElement, if_neg hisdigit, hr, hw.source.analyzed, hw.delimiter.analyzed, ok_bind,
    hstrstr, hone, ne_eq, not_true_eq_false, if_false, hw.source.toNat_length, hdelimiter, hnumber,
    reduceCtorEq, Option.some.injEq, Bool.true_eq_false]

/-- Without the delimiter nothing is stored. -/
theorem strElement_missing
    (hw : ElementWorld σ.memory reach d source delimiter p q s sTail c cTail)
    (hdigit : n.toInt % 256 ≤ 9) (hp : p ≠ 0) (hfound : searched s sTail c cTail ≠ some true) :
    strElement place result1 reach fuel d n delimiter source σ = .ok none ∨
      strElement place result1 reach fuel d n delimiter source σ = .ok (some ⟨normal, d, σ⟩) := by
  obtain ⟨r, hr⟩ := hw.destination
  have hq : q ≠ 0 := hw.delimiter.address_ne_zero (List.cons_ne_nil _ _)
  have hisdigit : ¬ isdigit (asChar (asInt n.toInt) + 48) = false := by
    rw [(isdigit_iff n.toInt).mpr hdigit]
    decide
  have hstrstr : (if p ≠ 0 ∧ q ≠ 0 then strstr σ.memory reach p q else some true) =
      searched s sTail c cTail := by
    rw [if_pos ⟨hp, hq⟩, strstr, hw.sourceEnd hp, hw.delimiterEnd]
    rfl
  simp only [strElement, if_neg hisdigit, hr, hw.source.analyzed, hw.delimiter.analyzed, ok_bind,
    hstrstr]
  cases hsearched : searched s sTail c cTail with
  | none => exact Or.inl rfl
  | some found =>
    cases found with
    | false => exact Or.inr rfl
    | true => exact absurd hsearched hfound

theorem strElement_notDigit (hdigit : ¬ n.toInt % 256 ≤ 9) :
    strElement place result1 reach fuel d n delimiter source σ = .ok (some ⟨strIllstrspe, d, σ⟩) := by
  have hisdigit : isdigit (asChar (asInt n.toInt) + 48) = false := by
    rw [← Bool.not_eq_true, isdigit_iff]
    exact hdigit
  simp only [strElement, hisdigit, if_true]
  rfl

/-! ## The condition is enough -/

theorem elementRight_of_condition (hn : 0 ≤ n.toInt)
    (h : ElementCondition s sTail c cTail n.toInt result1) :
    ElementRight s sTail c cTail n result1 := by
  obtain ⟨hdigit, hfound, hcases⟩ := h
  intro place σ reach d source delimiter p q hw
  have heq := fun fuel => @strElement_eq place σ reach d source delimiter p q s sTail cTail c n result1
    fuel hw hdigit fun _ => needleFound_iff.mp hfound
  rcases hcases with ⟨hshort, hcount, hresult⟩ | ⟨hint, w, rest, hbehind, hrest, hwshort, hpshort⟩
  · refine ⟨s.length + 1, ?_, fun _ => ?_⟩
    · -- the number itself is not less than what an `int` keeps of it
      have hle : asInt n.toInt ≤ n.toInt := by
        unfold asInt
        rw [Int.bmod_def]
        split <;> omega
      intro piece hpiece
      rcases piece_cases c n.toInt.toNat s with ⟨-, hnone⟩ | ⟨w, rest, hbehind, -⟩
      · rw [hnone] at hpiece
        cases hpiece
      · have hcount' := hbehind.le_count
        omega
    · have hmax : max (asInt n.toInt) 0 = ((asInt n.toInt).toNat : Int) := by omega
      rw [heq, hmax, elementFrom_none hw.source.bytes hshort (by omega), if_neg hresult]
  · have hmax : max (asInt n.toInt) 0 = (n.toInt.toNat : Int) := by
      rw [asInt, Int.bmod_eq_of_le (by omega) (by omega)]
      omega
    refine ⟨w.length + (rest.takeWhile (· ≠ c)).length + 1, fun piece hpiece => ?_, fun hnone => ?_⟩
    · rw [hbehind.piece] at hpiece
      obtain rfl := Option.some.inj hpiece
      have hbefore : rest.takeWhile (· ≠ c) <+: rest := List.takeWhile_prefix _
      have hlength : s.length = w.length + rest.length := by
        rw [← hbehind.append, List.length_append]
      refine ⟨w.length, ?_, ?_, ?_⟩
      · rw [hlength]
        exact Nat.add_le_add_left hbefore.length_le _
      · rw [← hbehind.append, List.drop_left]
        exact (List.prefix_iff_eq_take.mp hbefore).symm
      · rw [heq, hmax]
        exact elementFrom_piece hw.source.bytes hbehind hwshort hrest rfl hpshort
    · rw [hbehind.piece] at hnone
      cases hnone

/-! ## A world for each pair of strings -/

/-- A string and what is behind it up to the NUL. -/
def upToNul (s : List Byte) (tail : Option (List Byte)) : List Byte := s ++ tail.elim [] (· ++ [0])

theorem cString_eq {m : Memory} {p reach : Nat} {a : List Byte}
    (hm : ∀ i, i < reach → m (p + i) = a.getD i 1) (hreach : a.length < reach) :
    cString m p reach = if 0 ∈ a then some (a.takeWhile (· ≠ 0)) else none := by
  induction a generalizing p reach with
  | nil =>
    rw [if_neg List.not_mem_nil]
    clear hreach
    induction reach generalizing p with
    | zero => rfl
    | succ reach ih =>
      have hp : m p = 1 := hm 0 (Nat.succ_pos _)
      rw [cString, hp, if_neg (by decide), ih fun i hi => ?_]
      · rfl
      · have h := hm (i + 1) (Nat.succ_lt_succ hi)
        rwa [← Nat.add_assoc, Nat.add_right_comm] at h
  | cons x a ih =>
    obtain ⟨reach, rfl⟩ := Nat.exists_eq_succ_of_ne_zero (Nat.ne_zero_of_lt hreach)
    have hp : m p = x := hm 0 (Nat.succ_pos _)
    rw [cString, hp]
    by_cases hx : x = 0
    · subst hx
      rw [if_pos rfl, if_pos List.mem_cons_self, List.takeWhile_cons_of_neg (by decide)]
    · have hmem : 0 ∈ x :: a ↔ 0 ∈ a := by
        rw [List.mem_cons]
        exact or_iff_right (Ne.symm hx)
      have htake : (x :: a).takeWhile (· ≠ 0) = x :: a.takeWhile (· ≠ 0) :=
        List.takeWhile_cons_of_pos (by simpa using hx)
      rw [if_neg hx, ih (fun i hi => ?_) (Nat.lt_of_succ_lt_succ hreach), htake]
      · simp only [hmem]
        split <;> rfl
      · have h := hm (i + 1) (Nat.succ_lt_succ hi)
        rwa [← Nat.add_assoc, Nat.add_right_comm, List.getD_cons_succ] at h

theorem cText_upToNul {tail : Option (List Byte)} (htail : ∀ a, tail = some a → 0 ∉ a) :
    (if 0 ∈ upToNul s tail then some ((upToNul s tail).takeWhile (· ≠ 0)) else none) =
      cText s tail := by
  have hwhole : ∀ a : List Byte, 0 ∉ a → ∀ x ∈ a, decide (x ≠ 0) = true := by
    intro a ha x hx
    rw [decide_eq_true_eq]
    rintro rfl
    exact ha hx
  rw [cText, upToNul]
  by_cases hs : 0 ∈ s
  · have hshort : (s.takeWhile (· ≠ 0)).length ≠ s.length := by
      intro hlength
      have heq := (List.takeWhile_prefix (fun x : Byte => decide (x ≠ 0))).eq_of_length hlength
      have hzero := List.takeWhile_eq_self_iff.mp heq 0 hs
      exact absurd hzero (by decide)
    rw [if_pos hs, if_pos (List.mem_append_left _ hs), List.takeWhile_append, if_neg hshort]
  · rw [if_neg hs]
    cases tail with
    | none =>
      rw [Option.elim_none, List.append_nil, if_neg hs]
      rfl
    | some a =>
      have ha := htail a rfl
      have hmem : 0 ∈ s ++ (a ++ [0]) := by
        rw [← List.append_assoc]
        exact List.mem_append_right _ (List.mem_singleton.mpr rfl)
      have htake : (s ++ (a ++ [0])).takeWhile (· ≠ 0) = s ++ a := by
        rw [List.takeWhile_append_of_pos (hwhole s hs), List.takeWhile_append_of_pos (hwhole a ha)]
        exact congrArg (s ++ ·) (List.append_nil a)
      rw [Option.elim_some, if_pos hmem, htake]
      rfl

/-- A character that is not `c`. -/
def otherThan (c : Byte) : Byte := if c = 0 then 1 else 0

theorem otherThan_ne (c : Byte) : otherThan c ≠ c := by
  unfold otherThan
  split
  · next h =>
    rw [h]
    decide
  · next h => exact Ne.symm h

/-- The space between the strings. -/
def room (s : List Byte) (sTail : Option (List Byte)) (c : Byte) (cTail : Option (List Byte)) : Nat :=
  (upToNul s sTail).length + (upToNul [c] cTail).length + 65536

/-- `front` up to the source, then the delimiter, and then the block of a dynamic string. -/
def elementStore (front : Nat → Byte) (s : List Byte) (sTail : Option (List Byte)) (c : Byte)
    (cTail : Option (List Byte)) : Store :=
  ⟨fun a =>
      if a < 32769 then front a
      else if a < 32769 + room s sTail c cTail then (upToNul s sTail).getD (a - 32769) 1
      else (upToNul [c] cTail).getD (a - (32769 + room s sTail c cTail)) 1,
    [⟨32769 + 2 * room s sTail c cTail, 1⟩]⟩

section world

variable (front : Nat → Byte) (s : List Byte) (sTail : Option (List Byte)) (c : Byte)
  (cTail : Option (List Byte))

theorem elementStore_front {a : Nat} (ha : a < 32769) :
    (elementStore front s sTail c cTail).memory a = front a := if_pos ha

theorem elementStore_source {i : Nat} (hi : i < room s sTail c cTail) :
    (elementStore front s sTail c cTail).memory (32769 + i) = (upToNul s sTail).getD i 1 := by
  simp only [elementStore]
  rw [if_neg (by omega), if_pos (by omega), Nat.add_sub_cancel_left]

theorem elementStore_delimiter (i : Nat) :
    (elementStore front s sTail c cTail).memory (32769 + room s sTail c cTail + i) =
      (upToNul [c] cTail).getD i 1 := by
  simp only [elementStore]
  rw [if_neg (by omega), if_neg (by omega), Nat.add_sub_cancel_left]

theorem elementStore_tidy :
    Tidy (· < 32769 + 2 * room s sTail c cTail) (elementStore front s sTail c cTail) := by
  constructor
  · intro b hb
    cases List.mem_singleton.mp hb
    show 32769 + 2 * room s sTail c cTail ≠ 0
    omega
  · intro b hb b' hb'
    exact Or.inl ((List.mem_singleton.mp hb).trans (List.mem_singleton.mp hb').symm)
  · intro b hb a ha
    cases List.mem_singleton.mp hb
    exact Nat.not_lt.mpr ha.1

/-- A dynamic string with one character. -/
theorem elementStore_string :
    Dynamic (elementStore front s sTail c cTail) ⟨1, .d, 32769 + 2 * room s sTail c cTail⟩ [1] := by
  refine ⟨rfl, rfl, ?_, Or.inr ⟨by simp, 1, List.mem_singleton.mpr rfl, Nat.le_refl _⟩⟩
  refine bytesAt_eq_iff.mpr ⟨rfl, fun i hi => ?_⟩
  have hi' : i = 0 := by simpa using hi
  subst hi'
  have hplace : 32769 + 2 * room s sTail c cTail + 0 =
      32769 + room s sTail c cTail + room s sTail c cTail := by omega
  have hbeyond : (upToNul [c] cTail).length ≤ room s sTail c cTail := by
    unfold room
    omega
  rw [hplace, elementStore_delimiter, List.getD_eq_getElem?_getD,
    List.getElem?_eq_none hbeyond]
  rfl

/-- A character in front of the source. -/
theorem charAt_front {i : Int} {j : Nat} (hj : j < 32768)
    (hi : i = -32768 + (j : Int)) :
    charAt (elementStore front s sTail c cTail).memory 32769 i = some (front (1 + j)) := by
  have haddress : ((32769 : Nat) : Int) + i = ((1 + j : Nat) : Int) := by omega
  rw [charAt_of_eq haddress, elementStore_front front s sTail c cTail (by omega)]

theorem upToNul_getD {a : List Byte} {tail : Option (List Byte)} {i : Nat} (hi : i < a.length) :
    (upToNul a tail).getD i 1 = a[i] := by
  rw [upToNul, List.getD_eq_getElem?_getD, List.getElem?_append_left hi, List.getElem?_eq_getElem hi]
  rfl

theorem length_le_room : s.length + 65537 ≤ room s sTail c cTail := by
  unfold room upToNul
  rw [List.length_append, List.length_append, List.length_singleton]
  omega

theorem elementStore_bytes :
    bytesAt (elementStore front s sTail c cTail).memory 32769 s.length = s := by
  have hroom := length_le_room s sTail c cTail
  refine bytesAt_eq_iff.mpr ⟨rfl, fun i hi => ?_⟩
  rw [elementStore_source front s sTail c cTail (by omega), upToNul_getD hi]

theorem elementWorld (hs : s.length < 65536) (hsTail : ∀ a, sTail = some a → 0 ∉ a)
    (hcTail : ∀ a, cTail = some a → 0 ∉ a) {t : List Byte}
    (hd : Dynamic (elementStore front s sTail c cTail) d t) :
    ElementWorld (elementStore front s sTail c cTail).memory (room s sTail c cTail) d
      ⟨BitVec.ofNat 16 s.length, .s, 32769⟩ ⟨1, .s, 32769 + room s sTail c cTail⟩ 32769
      (32769 + room s sTail c cTail) s sTail c cTail := by
  have hroom := length_le_room s sTail c cTail
  constructor
  · exact ⟨_, hd.analyzed _⟩
  · exact Text.of_bytes (by decide) hs (elementStore_bytes front s sTail c cTail)
  · apply Text.of_bytes (s := [c]) (by omega) (by rw [List.length_singleton]; decide)
    refine bytesAt_eq_iff.mpr ⟨rfl, fun i hi => ?_⟩
    rw [elementStore_delimiter, upToNul_getD hi]
  · intro _
    rw [cString_eq (fun i hi => elementStore_source front s sTail c cTail hi)
      (by unfold room; omega), cText_upToNul hsTail]
  · rw [cString_eq (fun i _ => elementStore_delimiter front s sTail c cTail i)
      (by unfold room; omega), cText_upToNul hcTail]

/-- In this world a copy from in front of its strings, or from within, leaves what it has copied. -/
theorem elementStore_copy {t : List Byte} (hd : Dynamic (elementStore front s sTail c cTail) d t)
    {a : Nat} (ha : a ≠ 0) {k : BitVec 16} (hk : a + k.toNat ≤ 32769 + 2 * room s sTail c cTail) :
    ∃ out, strCopyR (above (32769 + 2 * room s sTail c cTail)) d k a
        (elementStore front s sTail c cTail) = .ok out ∧
      Dynamic out.store out.destination
        (bytesAt (elementStore front s sTail c cTail).memory a k.toNat) := by
  have hcopy := strCopyR_dynamic (p := a) (n := k) (above_allocates _)
    (elementStore_tidy front s sTail c cTail) hd (fun h => absurd h ha) fun i hi => Or.inl (by
      show a + i < 32769 + 2 * room s sTail c cTail
      omega)
  obtain ⟨out, hout, -, hleaves⟩ := hcopy.returns fun σ n _ => above_ne_zero (by omega) σ n
  exact ⟨out, hout, hleaves.dynamic⟩

/-- What has been stored is the piece. -/
theorem elementStore_stored {t piece : List Byte}
    (hd : Dynamic (elementStore front s sTail c cTail) d t) (hs : s.length < 65536)
    {call : Except Fault (Option Outcome)}
    (h : Stored (above (32769 + 2 * room s sTail c cTail)) d 32769 s piece
      (elementStore front s sTail c cTail) call) :
    ∃ out, call = .ok (some out) ∧ out.status = normal ∧ Dynamic out.store out.destination piece := by
  obtain ⟨o, ho, hpiece, rfl⟩ := h
  have hroom := length_le_room s sTail c cTail
  have hlength : (BitVec.ofNat 16 piece.length).toNat = piece.length := by
    rw [BitVec.toNat_ofNat, Nat.mod_eq_of_lt (by omega)]
  obtain ⟨out, hout, hdynamic⟩ := elementStore_copy front s sTail c cTail hd
    (a := 32769 + o) (by omega) (k := BitVec.ofNat 16 piece.length) (by rw [hlength]; omega)
  rw [hlength, bytesAt_part (elementStore_bytes front s sTail c cTail) (Or.inr ho), hpiece] at hdynamic
  rw [hout]
  exact ⟨_, rfl, rfl, hdynamic⟩

end world

/-! ## The condition is necessary -/

section necessary

variable (hs : s.length < 65536) (hsTail : ∀ a, sTail = some a → 0 ∉ a)
  (hcTail : ∀ a, cTail = some a → 0 ∉ a) (h : ElementRight s sTail c cTail n result1)
include hs hsTail hcTail h

/-- What the property says in one of these worlds. -/
theorem right_elementStore (front : Nat → Byte) {t : List Byte}
    (hd : Dynamic (elementStore front s sTail c cTail) d t) :
    ∃ fuel out, strElement (above (32769 + 2 * room s sTail c cTail)) result1 (room s sTail c cTail)
        fuel d n ⟨1, .s, 32769 + room s sTail c cTail⟩ ⟨BitVec.ofNat 16 s.length, .s, 32769⟩
        (elementStore front s sTail c cTail) = .ok (some out) ∧
      (∀ piece, (s.splitOn c)[n.toInt.toNat]? = some piece →
        out.status = normal ∧ Dynamic out.store out.destination piece) ∧
      ((s.splitOn c)[n.toInt.toNat]? = none → out.status = strNoelem) := by
  obtain ⟨fuel, hsome, hnone⟩ := h (above (32769 + 2 * room s sTail c cTail)) _ _ _ _ _ _ _
    (elementWorld front s sTail c cTail hs hsTail hcTail hd)
  cases hpiece : (s.splitOn c)[n.toInt.toNat]? with
  | none =>
    refine ⟨fuel, _, hnone hpiece, ?_, fun _ => rfl⟩
    rintro piece ⟨⟩
  | some piece =>
    obtain ⟨out, hout, hstatus, hdynamic⟩ :=
      elementStore_stored front s sTail c cTail hd hs (hsome piece hpiece)
    refine ⟨fuel, out, hout, ?_, ?_⟩
    · rintro piece' ⟨⟩
      exact ⟨hstatus, hdynamic⟩
    · rintro ⟨⟩

/-- A call that stores nothing cannot be right for every destination. -/
theorem not_unchanged
    (hcall : ∀ (d : Descriptor) (t : List Byte),
      Dynamic (elementStore (fun _ => c) s sTail c cTail) d t → ∀ fuel out,
        strElement (above (32769 + 2 * room s sTail c cTail)) result1 (room s sTail c cTail) fuel d n
          ⟨1, .s, 32769 + room s sTail c cTail⟩ ⟨BitVec.ofNat 16 s.length, .s, 32769⟩
          (elementStore (fun _ => c) s sTail c cTail) = .ok (some out) →
        out = ⟨normal, d, elementStore (fun _ => c) s sTail c cTail⟩) : False := by
  have hempty := nullString_dynamic (elementStore (fun _ => c) s sTail c cTail)
  have hone := elementStore_string (fun _ => c) s sTail c cTail
  obtain ⟨fuel, out, hout, hsome, hnone⟩ := right_elementStore hs hsTail hcTail h _ hempty
  obtain ⟨fuel', out', hout', hsome', -⟩ := right_elementStore hs hsTail hcTail h _ hone
  obtain rfl := hcall _ _ hempty _ _ hout
  obtain rfl := hcall _ _ hone _ _ hout'
  cases hpiece : (s.splitOn c)[n.toInt.toNat]? with
  | none =>
    have hstatus : normal = strNoelem := hnone hpiece
    exact absurd hstatus (by decide)
  | some piece =>
    have hpiece' := (hsome piece hpiece).2.unique hempty
    have hpiece'' := (hsome' piece hpiece).2.unique hone
    exact nomatch hpiece'.symm.trans hpiece''

theorem digit_of_right : n.toInt % 256 ≤ 9 := by
  by_contra hdigit
  obtain ⟨fuel, out, hout, hsome, hnone⟩ := right_elementStore hs hsTail hcTail h (fun _ => c)
    (nullString_dynamic _)
  rw [strElement_notDigit hdigit] at hout
  obtain rfl := Option.some.inj (Except.ok.inj hout)
  cases hpiece : (s.splitOn c)[n.toInt.toNat]? with
  | none =>
    have hstatus : strIllstrspe = strNoelem := hnone hpiece
    exact absurd hstatus (by decide)
  | some piece =>
    have hstatus : strIllstrspe = normal := (hsome piece hpiece).1
    exact absurd hstatus (by decide)

theorem found_of_right : searched s sTail c cTail = some true := by
  have hdigit := digit_of_right hs hsTail hcTail h
  by_contra hfound
  apply not_unchanged hs hsTail hcTail h
  intro d t hd fuel out hout
  rcases @strElement_missing (above (32769 + 2 * room s sTail c cTail)) _ _ _ _ _ _ _ _ _ _ _ _
    result1 fuel (elementWorld (fun _ => c) s sTail c cTail hs hsTail hcTail hd) hdigit (by decide)
    hfound with hmissing | hmissing
  · rw [hmissing] at hout
    exact nomatch hout
  · rw [hmissing] at hout
    exact (Option.some.inj (Except.ok.inj hout)).symm

/-- What is checked before the search goes through. -/
theorem right_elementFrom (front : Nat → Byte) {t : List Byte}
    (hd : Dynamic (elementStore front s sTail c cTail) d t) :
    ∃ fuel out, elementFrom (above (32769 + 2 * room s sTail c cTail)) result1 fuel d 32769 s.length c
        (max (asInt n.toInt) 0) (elementStore front s sTail c cTail) = .ok (some out) ∧
      (∀ piece, (s.splitOn c)[n.toInt.toNat]? = some piece →
        out.status = normal ∧ Dynamic out.store out.destination piece) ∧
      ((s.splitOn c)[n.toInt.toNat]? = none → out.status = strNoelem) := by
  obtain ⟨fuel, out, hout, hright⟩ := right_elementStore hs hsTail hcTail h front hd
  rw [strElement_eq (elementWorld front s sTail c cTail hs hsTail hcTail hd)
    (digit_of_right hs hsTail hcTail h) fun _ => found_of_right hs hsTail hcTail h] at hout
  exact ⟨fuel, out, hout, hright⟩

/-- Where there is no piece. -/
theorem fewer_of_right (hnone : (s.splitOn c)[n.toInt.toNat]? = none) :
    s.length ≤ 32767 ∧ (s.count c : Int) < asInt n.toInt ∧ result1 ≠ strNormal := by
  obtain ⟨fuel, out, hout, -, hstatus⟩ := right_elementFrom hs hsTail hcTail h (fun _ => c)
    (nullString_dynamic _)
  have hbytes := elementStore_bytes (fun _ => c) s sTail c cTail
  have hnormal : out.status ≠ normal := by
    rw [hstatus hnone]
    decide
  have hshort : s.length ≤ 32767 := by
    by_contra hlong
    exact hnormal (elementFrom_long (by omega) (Int.le_max_right _ _) hout)
  have hmax : max (asInt n.toInt) 0 = ((asInt n.toInt).toNat : Int) := by omega
  rw [hmax] at hout
  rcases piece_cases c (asInt n.toInt).toNat s with ⟨hcount, -⟩ | ⟨w, rest, hbehind, -⟩
  · have hfew := @elementFrom_none c s 32769 (above (32769 + 2 * room s sTail c cTail)) nullString _
      _ result1 hbytes hshort hcount
    have heq := elementFrom_unique hout (by simp) hfew (by simp)
    refine ⟨hshort, by omega, fun hresult => hnormal ?_⟩
    obtain rfl := Option.some.inj (Except.ok.inj heq)
    exact if_pos hresult
  · have hlength : w.length ≤ s.length := by
      rw [← hbehind.append, List.length_append]
      omega
    have hstart := startLoop_behind hbytes hbehind (by omega) 0
    exact absurd (elementFrom_success hstart hout).1 hnormal

variable {w rest : List Byte} (hbehind : Behind c n.toInt.toNat s w rest)
  (hmax : max (asInt n.toInt) 0 = (n.toInt.toNat : Int))
include hbehind hmax

/-- The length that is stored is that of the piece. -/
theorem right_length (front : Nat → Byte) {r : Int} {fuel : Nat} (hr : -32768 ≤ r)
    (hr' : r < 32768) (hlt : r < s.length)
    (hstart : startLoop (elementStore front s sTail c cTail).memory 32769 s.length c fuel
      n.toInt.toNat 0 = some (0, r)) :
    ∃ fuel l, lengthLoop (elementStore front s sTail c cTail).memory 32769 s.length c r fuel 0 =
        some l ∧ (-32768 ≤ l ∧ l < 32768) ∧
      (rest.takeWhile (· ≠ c)).length = (BitVec.ofInt 16 l).toNat := by
  have hempty := nullString_dynamic (elementStore front s sTail c cTail)
  obtain ⟨fuel, out, hout, hsome, -⟩ := right_elementFrom hs hsTail hcTail h front hempty
  rw [hmax] at hout
  obtain ⟨-, l, hl, hcopy⟩ := elementFrom_success hstart hout
  have hroom := length_le_room s sTail c cTail
  have hk := (BitVec.ofInt 16 l).isLt
  obtain ⟨out', hout', hdynamic⟩ := elementStore_copy front s sTail c cTail hempty
    (a := (32769 + r).toNat) (by omega) (k := BitVec.ofInt 16 l) (by omega)
  have haddress : (((32769 : Nat) : Int) + r).toNat = (32769 + r).toNat := rfl
  rw [elementCopy, if_pos hlt, haddress, hout', ok_bind] at hcopy
  obtain rfl := Option.some.inj (Except.ok.inj hcopy)
  have hpiece := (hsome _ hbehind.piece).2.unique hdynamic
  refine ⟨fuel, l, hl, lengthLoop_range (by decide) hl, ?_⟩
  rw [hpiece, length_bytesAt]

/-- The start of the element is one that a `short` holds. -/
theorem start_of_right : w.length ≤ 32767 := by
  by_contra hlong
  have hlength : s.length = w.length + rest.length := by
    rw [← hbehind.append, List.length_append]
  -- after 32768 characters so many delimiters are still wanted
  have htake : ∀ i, i ≤ 32768 → s.take i = w.take i := by
    intro i hi
    rw [← hbehind.append, List.take_append_of_le_length (by omega)]
  obtain ⟨k, hk, hk'⟩ : ∃ k, n.toInt.toNat = (s.take 32768).count c + k ∧ k < 32768 := by
    refine ⟨(w.drop 32768).count c, ?_, ?_⟩
    · rw [htake 32768 (Nat.le_refl _), ← List.count_append, List.take_append_drop, hbehind.count]
    · have hle : (w.drop 32768).count c ≤ (w.drop 32768).length := List.count_le_length
      rw [List.length_drop] at hle
      omega
  have hstart : ∀ front : Nat → Byte, (∀ j, j < k → front (1 + j) = c) →
      startLoop (elementStore front s sTail c cTail).memory 32769 s.length c (32768 + (k + 1))
        n.toInt.toNat 0 = some (0, -32768 + (k : Int)) := by
    intro front hfront
    have hfull : (s.take 32768).length = 32768 := by
      rw [List.length_take]
      omega
    have hsource := @startLoop_run (elementStore front s sTail c cTail).memory 32769 s.length c
      (s.take 32768) 0 n.toInt.toNat (k + 1) (fun i hi => by
        rw [Int.zero_add, charAt_text (elementStore_bytes front s sTail c cTail) (by omega),
          List.getElem_take])
      (by decide) (by decide) (by rw [hfull]; decide) (by rw [hfull]; omega) (fun i hi => by
        rw [List.take_take, Nat.min_eq_left (by omega), htake i (by omega)]
        exact Int.ofNat_lt.mpr (hbehind.first i (by omega)))
    have hwanted : ((n.toInt.toNat : Nat) : Int) - ((s.take 32768).count c : Nat) = k := by omega
    have hrun := @startLoop_run (elementStore front s sTail c cTail).memory 32769 s.length c
      (List.replicate k c) (-32768) k 1 (fun i hi => by
        rw [List.length_replicate] at hi
        rw [charAt_front front s sTail c cTail (by omega) rfl, hfront i hi, List.getElem_replicate])
      (by decide) (by decide) (by rw [List.length_replicate]; omega)
      (by rw [List.length_replicate]; omega) (fun i hi => by
        rw [List.length_replicate] at hi
        rw [List.take_replicate, Nat.min_eq_left (Nat.le_of_lt hi), List.count_replicate_self]
        exact Int.ofNat_lt.mpr hi)
    rw [List.length_replicate, List.count_replicate_self, Int.sub_self,
      asShort_of_isShort (by omega) (by omega), startLoop_stop 0 fun h => absurd h.1 (by decide)]
      at hrun
    rw [hwanted, hfull] at hsource
    rw [hsource]
    exact hrun
  have hfirst : (-32768 + (k : Int)) + 0 = -32768 + (k : Int) := Int.add_zero _
  -- one more in front of the source makes the element empty, something else does not
  obtain ⟨fuel, l, hl, -, hpiece⟩ := right_length hs hsTail hcTail h hbehind hmax (fun _ => c)
    (by omega) (by omega) (by omega) (hstart _ fun _ _ => rfl)
  have hstop : lengthLoop (elementStore (fun _ => c) s sTail c cTail).memory 32769 s.length c
      (-32768 + (k : Int)) 1 0 = some 0 := by
    rw [lengthLoop, if_pos (by omega), charAt_front _ s sTail c cTail hk' hfirst]
    simp
  obtain rfl := lengthLoop_unique hl hstop
  obtain ⟨fuel', l', hl', hrange, hpiece'⟩ := right_length hs hsTail hcTail h hbehind hmax
    (fun a => if a < 1 + k then c else otherThan c) (by omega) (by omega) (by omega)
    (hstart _ fun j hj => if_pos (by omega))
  have hend := lengthLoop_end hl'
  have hne : l' ≠ 0 := by
    rintro rfl
    have hchar := hend (by omega)
    rw [charAt_front _ s sTail c cTail hk' hfirst, if_neg (Nat.lt_irrefl _)] at hchar
    exact otherThan_ne c (Option.some.inj hchar)
  rw [hpiece, BitVec.toNat_ofInt, BitVec.toNat_ofInt] at hpiece'
  omega

/-- The length of the element is one that a `short` holds. -/
theorem length_of_right (hw : w.length ≤ 32767) (hrest : rest ≠ []) :
    (rest.takeWhile (· ≠ c)).length ≤ 32767 := by
  by_contra hlong
  have hlt : (w.length : Int) < s.length := by
    have hpos := List.length_pos_iff.mpr hrest
    rw [← hbehind.append, List.length_append]
    omega
  have hrun : ∀ (front : Nat → Byte) fuel,
      lengthLoop (elementStore front s sTail c cTail).memory 32769 s.length c w.length
          (32768 + fuel) 0 =
        lengthLoop (elementStore front s sTail c cTail).memory 32769 s.length c w.length fuel
          (-32768) := by
    intro front fuel
    have h := @lengthLoop_run _ _ _ _ w.length fuel 0 32768 (by decide)
      (fun i _ hi => piece_char (elementStore_bytes front s sTail c cTail) hbehind (by omega))
      (by decide)
    exact h
  have hstart := fun front => startLoop_behind (elementStore_bytes front s sTail c cTail) hbehind hw 0
  have hfront : (w.length : Int) + -32768 = -32768 + (w.length : Int) := Int.add_comm _ _
  -- with delimiters in front of the source it ends at once, otherwise not there
  obtain ⟨fuel, l, hl, -, hlength⟩ := right_length hs hsTail hcTail h hbehind hmax (fun _ => c)
    (by omega) (by omega) hlt (hstart _)
  have hstop : lengthLoop (elementStore (fun _ => c) s sTail c cTail).memory 32769 s.length c w.length
      (32768 + 1) 0 = some (-32768) := by
    rw [hrun, lengthLoop, if_pos (by omega),
      charAt_front _ s sTail c cTail (by omega) hfront]
    simp
  obtain rfl := lengthLoop_unique hl hstop
  obtain ⟨fuel', l', hl', hrange, hlength'⟩ := right_length hs hsTail hcTail h hbehind hmax
    (fun _ => otherThan c) (by omega) (by omega) hlt (hstart _)
  have hend := lengthLoop_end hl'
  have hne : l' ≠ -32768 := by
    rintro rfl
    have hchar := hend (by omega)
    rw [charAt_front _ s sTail c cTail (by omega) hfront] at hchar
    exact otherThan_ne c (Option.some.inj hchar)
  rw [hlength, BitVec.toNat_ofInt, BitVec.toNat_ofInt] at hlength'
  omega

/-- The element is not an empty one at the end of the source. -/
theorem rest_of_right (hw : w.length ≤ 32767) : rest ≠ [] := by
  rintro rfl
  have hwhole : w = s := (List.append_nil w).symm.trans hbehind.append
  subst hwhole
  apply not_unchanged hs hsTail hcTail h
  intro d t hd fuel out hout
  rw [strElement_eq (elementWorld (fun _ => c) _ sTail c cTail hs hsTail hcTail hd)
    (digit_of_right hs hsTail hcTail h) (fun _ => found_of_right hs hsTail hcTail h), hmax] at hout
  have hlast := @elementFrom_last c w 32769 (above (32769 + 2 * room w sTail c cTail)) d
    (elementStore (fun _ => c) w sTail c cTail) _ result1
    (elementStore_bytes (fun _ => c) w sTail c cTail) hbehind hw
  have heq := elementFrom_unique hout (by simp) hlast (by simp)
  exact Option.some.inj (Except.ok.inj heq)

end necessary

theorem condition_of_elementRight (hs : s.length < 65536) (hsTail : ∀ a, sTail = some a → 0 ∉ a)
    (hcTail : ∀ a, cTail = some a → 0 ∉ a) (hn : 0 ≤ n.toInt)
    (h : ElementRight s sTail c cTail n result1) : ElementCondition s sTail c cTail n.toInt result1 := by
  refine ⟨digit_of_right hs hsTail hcTail h, needleFound_iff.mpr (found_of_right hs hsTail hcTail h), ?_⟩
  rcases piece_cases c n.toInt.toNat s with ⟨-, hnone⟩ | ⟨w, rest, hbehind, -⟩
  · exact Or.inl (fewer_of_right hs hsTail hcTail h hnone)
  · have hcount := hbehind.le_count
    have hle : s.count c ≤ s.length := List.count_le_length
    have hmax : max (asInt n.toInt) 0 = (n.toInt.toNat : Int) := by
      rw [asInt, Int.bmod_eq_of_le (by omega) (by omega)]
      omega
    have hw := start_of_right hs hsTail hcTail h hbehind hmax
    have hrest := rest_of_right hs hsTail hcTail h hbehind hmax hw
    exact Or.inr ⟨by omega, w, rest, hbehind, hrest, hw,
      length_of_right hs hsTail hcTail h hbehind hmax hw hrest⟩

end FreeVMS.Rtl.Str
