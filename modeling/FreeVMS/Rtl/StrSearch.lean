import FreeVMS.Lib.Occurrence
import FreeVMS.Rtl.StrCompare

/-!
# Searching for a substring

`str$position` and `lib$matchc` compare the substring with the source at one place after another.
The first of them starts where it is told to, less one: from a start of 0 that is in front of the
source. Here a byte can be looked at only where it is readable.
-/

namespace FreeVMS.Rtl.Str

open Lib.Occurrence

/-- The byte at an address, if it may be examined. -/
def look (m : Memory) (readable : Nat → Bool) (a : Int) : Option Byte :=
  if 0 ≤ a ∧ readable a.toNat = true then some (m a.toNat) else none

/-- `memcmp`, with no result when it examines a byte that it may not. -/
def memcmpWithin (m : Memory) (readable : Nat → Bool) (s1 s2 : Int) : Nat → Option Int
  | 0 => some 0
  | n + 1 => do
    let x ← look m readable s1
    let y ← look m readable s2
    if x ≠ y then some ((x.toNat : Int) - y.toNat)
    else memcmpWithin m readable (s1 + 1) (s2 + 1) n

/-- The loop of both routines over the places to compare at. -/
def searchLoop (compare : Int → Option Int) (loop : Int) : Nat → Option Nat
  | 0 => some 0
  | steps + 1 => do
    let result ← compare loop
    if result = 0 then some (loop + 1).toNat else searchLoop compare (loop + 1) steps

/-- `str$position` -/
def strPosition (m : Memory) (readable : Nat → Bool)
    (firstSourceString secondSourceString : Descriptor) (startPosition : Int) :
    Except Fault (Option Nat) := do
  let (s1Length, s1) ← strAnalyzeSdesc m firstSourceString
  let (s2Length, s2) ← strAnalyzeSdesc m secondSourceString
  let startPos := if startPosition < 0 then 0 else startPosition
  let startPos := if (s1Length.toNat : Int) < startPos then (s1Length.toNat : Int) else startPos
  if s2Length = 0 then return some (s1Length.toNat + 1)
  let first := startPos - 1
  let last : Int := s1Length.toNat - s2Length.toNat
  return searchLoop (fun loop => memcmpWithin m readable (s1 + loop) s2 s2Length.toNat) first
    (last + 1 - first).toNat

/-- `lib$matchc` -/
def libMatchc (m : Memory) (readable : Nat → Bool) (searchString sourceString : Descriptor) :
    Except Fault (Option Nat) := do
  let (s1Length, s1) ← strAnalyzeSdesc m searchString
  let (s2Length, s2) ← strAnalyzeSdesc m sourceString
  if s2Length = 0 ∧ s1Length ≠ 0 then return some 0
  if s1Length = 0 then return some 1
  let last : Int := s2Length.toNat - s1Length.toNat
  return searchLoop (fun loop => memcmpWithin m readable s1 (s2 + loop) s1Length.toNat) 0
    (last + 1).toNat

/-! ## Comparing at one place -/

/-- All of the `n` bytes at `p` may be examined. -/
def Covers (readable : Nat → Bool) (p n : Nat) : Prop := ∀ i, i < n → readable (p + i) = true

variable {m : Memory} {readable : Nat → Bool} {first second : Descriptor} {s u : List Byte}
  {p q : Nat}

theorem look_of_readable {a : Nat} (h : readable a = true) : look m readable a = some (m a) := by
  simp [look, h]

theorem memcmpWithin_eq {a b : List Byte} (hlength : a.length = b.length)
    (ha : bytesAt m p a.length = a) (hb : bytesAt m q b.length = b)
    (hreada : Covers readable p a.length) (hreadb : Covers readable q b.length) :
    ∃ result, memcmpWithin m readable p q a.length = some result ∧ (result = 0 ↔ a = b) := by
  induction a generalizing b p q with
  | nil =>
    obtain rfl := List.eq_nil_of_length_eq_zero hlength.symm
    exact ⟨0, rfl, iff_of_true rfl rfl⟩
  | cons x a ih =>
    cases b with
    | nil => exact nomatch hlength
    | cons y b =>
      rw [List.length_cons, bytesAt_succ] at ha hb
      obtain ⟨hx, hresta⟩ := List.cons.inj ha
      obtain ⟨hy, hrestb⟩ := List.cons.inj hb
      have hlookx : look m readable p = some (m p) :=
        look_of_readable (hreada 0 (Nat.succ_pos _))
      have hlooky : look m readable q = some (m q) :=
        look_of_readable (hreadb 0 (Nat.succ_pos _))
      rw [hx] at hlookx
      rw [hy] at hlooky
      rw [List.length_cons, memcmpWithin, hlookx, hlooky]
      simp only [Option.bind_eq_bind, Option.bind_some]
      by_cases hxy : x = y
      · subst hxy
        rw [if_neg (not_not_intro rfl)]
        obtain ⟨result, hresult, hiff⟩ := ih (Nat.succ.inj hlength) hresta hrestb
          (fun i hi => by
            have h := hreada (i + 1) (Nat.succ_lt_succ hi)
            rwa [Nat.add_comm i 1, ← Nat.add_assoc] at h)
          (fun i hi => by
            have h := hreadb (i + 1) (Nat.succ_lt_succ hi)
            rwa [Nat.add_comm i 1, ← Nat.add_assoc] at h)
        refine ⟨result, hresult, hiff.trans ?_⟩
        rw [List.cons.injEq]
        exact ⟨fun h => ⟨rfl, h⟩, fun h => h.2⟩
      · have hne : x.toNat ≠ y.toNat := fun h => hxy (BitVec.eq_of_toNat_eq h)
        rw [if_pos hxy]
        refine ⟨_, rfl, iff_of_false (by omega) ?_⟩
        intro h
        exact hxy (List.cons.inj h).1

/-- The comparison at a place where all of the substring fits in. -/
theorem window_readable (hsource : bytesAt m p s.length = s) (hread : Covers readable p s.length)
    {k : Nat} (hk : 1 ≤ k) (hfits : k + u.length ≤ s.length + 1) :
    bytesAt m (p + (k - 1)) u.length = (s.drop (k - 1)).take u.length ∧
      ((s.drop (k - 1)).take u.length).length = u.length ∧
      Covers readable (p + (k - 1)) u.length := by
  refine ⟨bytesAt_part hsource (Or.inr (by omega)), ?_, ?_⟩
  · rw [List.length_take, List.length_drop]
    omega
  · intro i hi
    rw [Nat.add_assoc]
    exact hread _ (by omega)

/-! ## The loop -/

/-- The loop finds the first position at which the comparison says so. -/
theorem searchLoop_first {compare : Int → Option Int} {P : Nat → Prop} (k steps : Nat)
    (hcompare : ∀ p, k ≤ p → p < k + steps →
      ∃ result, compare ((p : Int) - 1) = some result ∧ (result = 0 ↔ P p))
    (hend : ∀ p, k + steps ≤ p → ¬ P p) :
    ∃ r, searchLoop compare ((k : Int) - 1) steps = some r ∧ FirstFrom P k r := by
  induction steps generalizing k with
  | zero => exact ⟨0, rfl, FirstFrom.none hend⟩
  | succ steps ih =>
    obtain ⟨result, hresult, hiff⟩ := hcompare k (Nat.le_refl k) (by omega)
    rw [searchLoop, hresult, Option.bind_eq_bind, Option.bind_some]
    by_cases hzero : result = 0
    · rw [if_pos hzero, Int.sub_add_cancel, Int.toNat_natCast]
      exact ⟨k, rfl, FirstFrom.here (hiff.mp hzero)⟩
    · have hnext : (k : Int) - 1 + 1 = ((k + 1 : Nat) : Int) - 1 := by omega
      rw [if_neg hzero, hnext]
      obtain ⟨r, hr, hfirst⟩ := ih (k + 1) (fun p hp hlt => hcompare p (by omega) (by omega))
        (fun p hp => hend p (by omega))
      exact ⟨r, hr, hfirst.next fun hP => hzero (hiff.mpr hP)⟩

/-- Up to the last place at which the substring fits in nothing is missed. -/
theorem search_first (hu : u ≠ []) {compare : Int → Option Int} {k : Nat} (hk : 1 ≤ k)
    (hcompare : ∀ p : Nat, 1 ≤ p → p + u.length ≤ s.length + 1 →
      ∃ result, compare ((p : Int) - 1) = some result ∧ (result = 0 ↔ Occurs u s p)) :
    ∃ r, searchLoop compare ((k : Int) - 1)
        ((s.length : Int) - u.length + 1 - ((k : Int) - 1)).toNat = some r ∧
      FirstFrom (Occurs u s) k r := by
  apply searchLoop_first
  · exact fun p hp hlt => hcompare p (by omega) (by omega)
  · intro p hp hoccurs
    have hle := hoccurs.le hu
    omega

/-! ## The two routines -/

/-- Where `str$position` starts. -/
def startOf (start : Int) (n : Nat) : Int := min (max start 0) n

theorem ofNat_eq_zero_iff (hs : s.length < 65536) : BitVec.ofNat 16 s.length = 0 ↔ s = [] := by
  constructor
  · intro h
    have hzero := congrArg BitVec.toNat h
    rw [BitVec.toNat_ofNat, Nat.mod_eq_of_lt hs] at hzero
    exact List.eq_nil_of_length_eq_zero hzero
  · rintro rfl
    rfl

theorem strPosition_eq (hs : Text m first p s) (hu : Text m second q u) (hne : u ≠ [])
    (start : Int) :
    strPosition m readable first second start =
      .ok (searchLoop (fun loop => memcmpWithin m readable (p + loop) q u.length)
        (startOf start s.length - 1)
        ((s.length : Int) - u.length + 1 - (startOf start s.length - 1)).toNat) := by
  have hstart : (if (s.length : Int) < (if start < 0 then 0 else start) then (s.length : Int)
      else (if start < 0 then 0 else start)) = startOf start s.length := by
    unfold startOf
    split_ifs <;> omega
  have hnonempty : ¬ BitVec.ofNat 16 u.length = 0 := fun h => hne ((ofNat_eq_zero_iff hu.fits).mp h)
  simp only [strPosition, hs.analyzed, hu.analyzed, ok_bind, hs.toNat_length, hu.toNat_length,
    hstart, if_neg hnonempty]
  rfl

/-- `str$position` compares the substring with the window at the position `j`. -/
theorem compare_window (hs : Text m first p s) (hu : Text m second q u)
    (hreads : Covers readable p s.length) (hreadu : Covers readable q u.length) {j : Nat}
    (hj : 1 ≤ j) (hfits : j + u.length ≤ s.length + 1) :
    ∃ result, memcmpWithin m readable ((p : Int) + ((j : Int) - 1)) q u.length = some result ∧
      (result = 0 ↔ Occurs u s j) := by
  obtain ⟨hbytes, hlength, hread⟩ := @window_readable m readable s u p hs.bytes hreads j hj hfits
  have haddress : (p : Int) + ((j : Int) - 1) = ((p + (j - 1) : Nat) : Int) := by omega
  have hmemcmp := @memcmpWithin_eq m readable _ _ _ _ hlength
    (by rw [hlength]; exact hbytes) hu.bytes (by rw [hlength]; exact hread) hreadu
  rw [hlength] at hmemcmp
  rw [haddress, occurs_iff_take hj]
  exact hmemcmp

theorem strPosition_first (hs : Text m first p s) (hu : Text m second q u) (hne : u ≠ [])
    (hreads : Covers readable p s.length) (hreadu : Covers readable q u.length) {start : Int} {k : Nat}
    (hk : 1 ≤ k) (hstart : startOf start s.length = k) :
    ∃ r, strPosition m readable first second start = .ok (some r) ∧
      FirstFrom (Occurs u s) k r := by
  rw [strPosition_eq hs hu hne, hstart]
  obtain ⟨r, hr, hfirst⟩ := @search_first s u hne
    (fun loop => memcmpWithin m readable (p + loop) q u.length) k hk
    fun j hj hfits => compare_window hs hu hreads hreadu hj hfits
  exact ⟨r, congrArg Except.ok hr, hfirst⟩

theorem libMatchc_first (hs : Text m first p s) (hu : Text m second q u) (hne : u ≠ [])
    (hreads : Covers readable p s.length) (hreadu : Covers readable q u.length) :
    ∃ r, libMatchc m readable second first = .ok (some r) ∧ FirstFrom (Occurs u s) 1 r := by
  have hnonempty : ¬ BitVec.ofNat 16 u.length = 0 := fun h => hne ((ofNat_eq_zero_iff hu.fits).mp h)
  by_cases hnil : s = []
  · refine ⟨0, ?_, FirstFrom.none fun k hk hoccurs => ?_⟩
    · have hempty := (ofNat_eq_zero_iff hs.fits).mpr hnil
      simp only [libMatchc, hs.analyzed, hu.analyzed, ok_bind, hempty, ne_eq, hnonempty,
        not_false_eq_true, and_self, if_true]
      rfl
    · have hle := hoccurs.le hne
      have hpos := List.length_pos_iff.mpr hne
      rw [hnil, List.length_nil] at hle
      omega
  · have hfull : ¬ (BitVec.ofNat 16 s.length = 0 ∧ BitVec.ofNat 16 u.length ≠ 0) :=
      fun h => hnil ((ofNat_eq_zero_iff hs.fits).mp h.1)
    obtain ⟨r, hr, hfirst⟩ := @search_first s u hne
      (fun loop => memcmpWithin m readable q (p + loop) u.length) 1 (Nat.le_refl 1) (by
        intro j hj hfits
        obtain ⟨hbytes, hlength, hread⟩ := @window_readable m readable s u p hs.bytes hreads j hj hfits
        have haddress : (p : Int) + ((j : Int) - 1) = ((p + (j - 1) : Nat) : Int) := by omega
        obtain ⟨result, hresult, hiff⟩ := @memcmpWithin_eq m readable _ _ _ _ hlength.symm
          hu.bytes (by rw [hlength]; exact hbytes) hreadu (by rw [hlength]; exact hread)
        simp only [haddress]
        exact ⟨result, hresult, (hiff.trans eq_comm).trans (occurs_iff_take hj).symm⟩)
    refine ⟨r, ?_, hfirst⟩
    have hfrom : (s.length : Int) - u.length + 1 = (s.length : Int) - u.length + 1 - ((1 : Nat) - 1) := by
      omega
    simp only [libMatchc, hs.analyzed, hu.analyzed, ok_bind, if_neg hfull, if_neg hnonempty,
      hs.toNat_length, hu.toNat_length]
    rw [hfrom]
    exact congrArg Except.ok hr

/-! ## When the search is right -/

/-- In every world with the two strings `str$position` returns the first position, and examines
nothing else; from the first character on it agrees with `lib$matchc`. -/
def PositionRight (s u : List Byte) (start : Int) : Prop :=
  ∀ m readable first second p q, Text m first p s → Text m second q u →
    Covers readable p s.length → Covers readable q u.length →
      (∃ r, strPosition m readable first second start = .ok (some r) ∧
        FirstFrom (Occurs u s) (max start 1).toNat r) ∧
      (start = 1 →
        strPosition m readable first second start = libMatchc m readable second first)

/-- The condition: the substring does not fit in even from a place in front of the source on, or the
start is in the source, or it is behind the source, which does not end in the substring. -/
def PositionCondition (s u : List Byte) (start : Int) : Prop :=
  s.length + 1 < u.length ∨
    1 ≤ start ∧ s ≠ [] ∧ (start ≤ s.length ∨ u ≠ s.drop (s.length - 1))

/-- The two strings behind each other, and nothing else to be examined. -/
def pairReadable (a b : List Byte) (i : Nat) : Bool :=
  decide (1 ≤ i ∧ i < 1 + (a.length + b.length))

theorem pairReadable_first (a b : List Byte) : Covers (pairReadable a b) 1 a.length := by
  intro i hi
  rw [pairReadable, decide_eq_true_eq]
  omega

theorem pairReadable_second (a b : List Byte) :
    Covers (pairReadable a b) (1 + a.length) b.length := by
  intro i hi
  rw [pairReadable, decide_eq_true_eq]
  omega

/-- At the last position of the source there is the last character only. -/
theorem eq_last_of_occurs (hu : u ≠ []) (hs : s ≠ []) (h : Occurs u s s.length) :
    u = s.drop (s.length - 1) := by
  have hle := h.le hu
  have hpos := List.length_pos_iff.mpr hu
  have hpos' := List.length_pos_iff.mpr hs
  apply h.2.eq_of_length
  rw [List.length_drop]
  omega

/-- The substring is too long for the loop to begin. -/
theorem strPosition_long (hs : Text m first p s) (hu : Text m second q u)
    (hlong : s.length + 1 < u.length) (start : Int) :
    strPosition m readable first second start = .ok (some 0) := by
  have hne : u ≠ [] := by
    rintro rfl
    exact absurd hlong (Nat.not_lt_zero _)
  have hsteps : ((s.length : Int) - u.length + 1 - (startOf start s.length - 1)).toNat = 0 := by
    unfold startOf
    omega
  rw [strPosition_eq hs hu hne, hsteps]
  rfl

/-- From position 0 the loop begins in front of the source. -/
theorem strPosition_front (hs : s.length < 65536) (hu : u.length < 65536) (hne : u ≠ [])
    (hfits : u.length ≤ s.length + 1) {start : Int} (hstart : startOf start s.length = 0) :
    strPosition (pairMemory s u) (pairReadable s u) ⟨BitVec.ofNat 16 s.length, .s, 1⟩
      ⟨BitVec.ofNat 16 u.length, .s, 1 + s.length⟩ start = .ok none := by
  rw [strPosition_eq (pairMemory_first hs) (pairMemory_second hu) hne, hstart]
  obtain ⟨steps, hsteps⟩ : ∃ steps, ((s.length : Int) - u.length + 1 - (0 - 1)).toNat = steps + 1 :=
    Nat.exists_eq_succ_of_ne_zero (by omega)
  obtain ⟨n, hn⟩ := Nat.exists_eq_succ_of_ne_zero (List.length_pos_iff.mpr hne).ne'
  rw [hsteps, hn]
  rfl

theorem positionRight_of_condition (hne : u ≠ []) {start : Int} (h : PositionCondition s u start) :
    PositionRight s u start := by
  intro m readable first second p q hs hu hreads hreadu
  obtain ⟨r', hmatch, hfirst'⟩ := libMatchc_first hs hu hne hreads hreadu
  have hposition : ∃ r, strPosition m readable first second start = .ok (some r) ∧
      FirstFrom (Occurs u s) (max start 1).toNat r := by
    rcases h with hlong | ⟨hstart, hnil, hbehind⟩
    · refine ⟨0, strPosition_long hs hu hlong start, FirstFrom.none fun k _ hoccurs => ?_⟩
      have hle := hoccurs.le hne
      have hk := hoccurs.1
      omega
    · have hpos := List.length_pos_iff.mpr hnil
      have hk : startOf start s.length = (min start.toNat s.length : Nat) := by
        unfold startOf
        omega
      obtain ⟨r, hr, hfirst⟩ := strPosition_first hs hu hne hreads hreadu (by omega) hk
      refine ⟨r, hr, (firstFrom_skip (by omega) fun k hle hlt hoccurs => ?_).mp hfirst⟩
      -- between the end of the source and the start only the end is looked at
      have hfits := hoccurs.le hne
      have hupos := List.length_pos_iff.mpr hne
      obtain rfl : k = s.length := by omega
      rcases hbehind with hbehind | hbehind
      · omega
      · exact hbehind (eq_last_of_occurs hne hnil hoccurs)
  refine ⟨hposition, ?_⟩
  rintro rfl
  obtain ⟨r, hr, hfirst⟩ := hposition
  rw [hr, hmatch, hfirst.unique hfirst']

theorem condition_of_positionRight (hs : s.length < 65536) (hu : u.length < 65536) (hne : u ≠ [])
    {start : Int} (h : PositionRight s u start) : PositionCondition s u start := by
  obtain ⟨⟨r, hr, hfirst⟩, -⟩ := h _ _ _ _ _ _ (pairMemory_first hs) (pairMemory_second hu)
    (pairReadable_first s u) (pairReadable_second s u)
  by_contra hcondition
  unfold PositionCondition at hcondition
  push Not at hcondition
  obtain ⟨hfits, hbehind⟩ := hcondition
  by_cases hzero : startOf start s.length = 0
  · rw [strPosition_front hs hu hne hfits hzero] at hr
    exact nomatch hr
  · have hstart : 1 ≤ start ∧ 1 ≤ s.length := by
      unfold startOf at hzero
      omega
    have hnil := List.length_pos_iff.mp hstart.2
    obtain ⟨hpast, hlast⟩ := hbehind hstart.1 hnil
    -- the last character is found although the start is behind it
    have hk : startOf start s.length = (s.length : Nat) := by
      unfold startOf
      omega
    obtain ⟨r', hr', hfirst'⟩ := strPosition_first (pairMemory_first hs) (pairMemory_second hu) hne
      (pairReadable_first s u) (pairReadable_second s u) hstart.2 hk
    have hoccurs : Occurs u s s.length := ⟨hstart.2, by
      rw [← hlast]⟩
    obtain rfl : s.length = r' := (FirstFrom.here hoccurs).unique hfirst'
    rw [hr] at hr'
    obtain rfl : r = s.length := Option.some.inj (Except.ok.inj hr')
    rcases hfirst with hfirst | ⟨hzero, -⟩
    · have hle := hfirst.1.1
      omega
    · omega

/-- **Substring search.** `str$position` finds the first occurrence from the start on, without
examining anything but the two strings, exactly under this condition. -/
theorem position_right_iff (s u : List Byte) (hs : s.length < 65536) (hu : u.length < 65536)
    (hne : u ≠ []) (start : Int) : PositionRight s u start ↔ PositionCondition s u start :=
  ⟨condition_of_positionRight hs hu hne, positionRight_of_condition hne⟩

theorem position_right_iff_abc :
    PositionRight [65, 66, 67] [67] 2 ↔ PositionCondition [65, 66, 67] [67] 2 :=
  position_right_iff [65, 66, 67] [67] (by decide) (by decide) (by decide) 2

/-- From position 4 on the `C` of `ABC` is found at 3. -/
theorem position_past_end : ¬ PositionRight [65, 66, 67] [67] 4 := by
  intro h
  have hcondition := condition_of_positionRight (by decide) (by decide) (by decide) h
  unfold PositionCondition at hcondition
  revert hcondition
  decide

end FreeVMS.Rtl.Str
