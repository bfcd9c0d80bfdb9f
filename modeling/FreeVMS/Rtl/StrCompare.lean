import FreeVMS.Lib.PaddedOrder
import FreeVMS.Rtl.StrHeap

/-!
# Comparison

`str$compare` compares two strings as far as both go, and then looks for a character in the rest of
the longer one that is not a blank. It takes the longer string for the greater one then, also where
that character comes before the blank.
-/

namespace FreeVMS.Rtl.Str

open Lib.PaddedOrder

/-- Of the first bytes that differ, as unsigned characters. -/
def memcmp (m : Memory) (s1 s2 : Nat) : Nat → Int
  | 0 => 0
  | n + 1 =>
    if m s1 ≠ m s2 then ((m s1).toNat : Int) - (m s2).toNat else memcmp m (s1 + 1) (s2 + 1) n

/-- The loop over the rest of the longer string, with the result for a character that is not a
blank. -/
def tailLoop (m : Memory) (result : Int) (p : Nat) : Nat → Int
  | 0 => 0
  | n + 1 => if m p ≠ blank then result else tailLoop m result (p + 1) n

/-- `str$compare` -/
def strCompare (m : Memory) (firstSourceString secondSourceString : Descriptor) :
    Except Fault Int := do
  let (s1Length, s1) ← strAnalyzeSdesc m firstSourceString
  let (s2Length, s2) ← strAnalyzeSdesc m secondSourceString
  let minLength := if s1Length < s2Length then s1Length.toNat else s2Length.toNat
  let result := if minLength ≠ 0 then memcmp m s1 s2 minLength else 0
  let result :=
    if result = 0 then
      if s1Length < s2Length then tailLoop m (-1) (s2 + minLength) (s2Length.toNat - minLength)
      else if s2Length < s1Length then
        tailLoop m 1 (s1 + minLength) (s1Length.toNat - minLength)
      else 0
    else result
  let result := if result < -1 then -1 else result
  return if 1 < result then 1 else result

/-! ## What it computes -/

/-- The loop over the rest of the longer string. -/
def restResult (result : Int) : List Byte → Int
  | [] => 0
  | y :: b => if y ≠ blank then result else restResult result b

/-- The result of `str$compare` on two strings. -/
def compared : List Byte → List Byte → Int
  | [], b => restResult (-1) b
  | x :: a, [] => restResult 1 (x :: a)
  | x :: a, y :: b => if x ≠ y then (if x < y then -1 else 1) else compared a b

theorem tailLoop_eq (m : Memory) (result : Int) (p : Nat) (a : List Byte)
    (h : bytesAt m p a.length = a) : tailLoop m result p a.length = restResult result a := by
  induction a generalizing p with
  | nil => rfl
  | cons x a ih =>
    rw [List.length_cons, bytesAt_succ] at h
    obtain ⟨hx, ha⟩ := List.cons.inj h
    rw [List.length_cons, tailLoop, restResult, hx, ih (p + 1) ha]

/-- The comparison from two addresses on, without the lengths in descriptors. -/
def compareFrom (m : Memory) (s1 s2 n1 n2 : Nat) : Int :=
  let result := memcmp m s1 s2 (min n1 n2)
  let result :=
    if result = 0 then
      if n1 < n2 then tailLoop m (-1) (s2 + min n1 n2) (n2 - min n1 n2)
      else if n2 < n1 then tailLoop m 1 (s1 + min n1 n2) (n1 - min n1 n2)
      else 0
    else result
  let result := if result < -1 then -1 else result
  if 1 < result then 1 else result

theorem restResult_cases (result : Int) (a : List Byte) :
    restResult result a = 0 ∨ restResult result a = result := by
  induction a with
  | nil => exact Or.inl rfl
  | cons x a ih =>
    rw [restResult]
    split
    · exact Or.inr rfl
    · exact ih

theorem compareFrom_succ {m : Memory} {s1 s2 : Nat} (h : m s1 = m s2) (n1 n2 : Nat) :
    compareFrom m s1 s2 (n1 + 1) (n2 + 1) = compareFrom m (s1 + 1) (s2 + 1) n1 n2 := by
  have hmin : min (n1 + 1) (n2 + 1) = min n1 n2 + 1 := by omega
  have hnext : ∀ p, p + (min n1 n2 + 1) = p + 1 + min n1 n2 := fun p => by omega
  simp only [compareFrom, hmin, memcmp, h, ne_eq, not_true_eq_false, if_false,
    Nat.add_lt_add_iff_right, Nat.add_sub_add_right, hnext]

theorem compareFrom_eq (m : Memory) (p q : Nat) {a b : List Byte}
    (ha : bytesAt m p a.length = a) (hb : bytesAt m q b.length = b) :
    compareFrom m p q a.length b.length = compared a b := by
  induction a generalizing b p q with
  | nil =>
    simp only [compareFrom, List.length_nil, Nat.zero_min, memcmp, if_true, Nat.add_zero,
      Nat.sub_zero, compared, tailLoop_eq m (-1) q b hb, Nat.not_lt_zero, if_false]
    cases b with
    | nil => rfl
    | cons y b =>
      have hpos : 0 < (y :: b).length := Nat.succ_pos _
      simp only [if_pos hpos]
      rcases restResult_cases (-1) (y :: b) with h | h <;> rw [h] <;> rfl
  | cons x a ih =>
    cases b with
    | nil =>
      simp only [compareFrom, List.length_nil, Nat.min_zero, memcmp, if_true, Nat.add_zero,
        Nat.sub_zero, compared, tailLoop_eq m 1 p (x :: a) ha, Nat.not_lt_zero, if_false]
      have hpos : 0 < (x :: a).length := Nat.succ_pos _
      simp only [if_pos hpos]
      rcases restResult_cases 1 (x :: a) with h | h <;> rw [h] <;> rfl
    | cons y b =>
      rw [List.length_cons, bytesAt_succ] at ha hb
      obtain ⟨hx, ha⟩ := List.cons.inj ha
      obtain ⟨hy, hb⟩ := List.cons.inj hb
      rw [List.length_cons, List.length_cons, compared]
      by_cases hxy : x = y
      · rw [if_neg (not_not_intro hxy), compareFrom_succ (by rw [hx, hy, hxy]),
          ih (p + 1) (q + 1) ha hb]
      · -- the first byte decides, and its difference is cut to a sign
        have hmin : min (a.length + 1) (b.length + 1) = min a.length b.length + 1 := by omega
        have hne : x.toNat ≠ y.toNat := fun h => hxy (BitVec.eq_of_toNat_eq h)
        simp only [compareFrom, hmin, memcmp, hx, hy, if_pos hxy, BitVec.lt_def]
        split_ifs <;> omega

/-- `str$compare` on two strings, wherever they are. -/
theorem strCompare_eq {m : Memory} {first second : Descriptor} {p q : Nat} {a b : List Byte}
    (ha : Text m first p a) (hb : Text m second q b) :
    strCompare m first second = .ok (compared a b) := by
  have hlt : (BitVec.ofNat 16 a.length < BitVec.ofNat 16 b.length) = (a.length < b.length) := by
    rw [BitVec.lt_def, ha.toNat_length, hb.toNat_length]
  have hgt : (BitVec.ofNat 16 b.length < BitVec.ofNat 16 a.length) = (b.length < a.length) := by
    rw [BitVec.lt_def, ha.toNat_length, hb.toNat_length]
  have hmin : (if a.length < b.length then a.length else b.length) = min a.length b.length := by
    split <;> omega
  have hmemcmp : ∀ n, (if n ≠ 0 then memcmp m p q n else 0) = memcmp m p q n := by
    intro n
    cases n with
    | zero => rfl
    | succ n => exact if_pos (Nat.succ_ne_zero n)
  rw [← compareFrom_eq m p q ha.bytes hb.bytes]
  simp only [strCompare, ha.analyzed, hb.analyzed, ok_bind, hlt, hgt, ha.toNat_length,
    hb.toNat_length, hmin, hmemcmp, compareFrom]
  rfl

/-! ## The order it should be -/

/-- The comparison of the unsigned bytes after the shorter string has been padded with blanks. -/
def lexSign (a b : List Byte) : Int :=
  sign blank.toNat (a.map BitVec.toNat) (b.map BitVec.toNat)

/-- The first character that is not a blank, if there is one, comes behind the blank. -/
def FirstAbove (rest : List Byte) : Prop :=
  ∀ c, rest.find? (fun c => c ≠ blank) = some c → blank < c

/-- If one string goes on where the other ends, it goes on above the blank. -/
def Ordered (a b : List Byte) : Prop :=
  a.take b.length = b.take a.length → FirstAbove (a.drop b.length ++ b.drop a.length)

theorem firstAbove_nil : FirstAbove [] := fun _ h => nomatch h

theorem restResult_neg (a : List Byte) : restResult 1 a = -restResult (-1) a := by
  induction a with
  | nil => rfl
  | cons x a ih =>
    rw [restResult, restResult]
    split
    · rfl
    · exact ih

theorem restResult_eq_iff (b : List Byte) :
    restResult (-1) b = restSign blank.toNat (b.map BitVec.toNat) ↔ FirstAbove b := by
  induction b with
  | nil => exact iff_of_true rfl firstAbove_nil
  | cons y b ih =>
    rw [restResult, List.map_cons, restSign, FirstAbove]
    by_cases hy : y = blank
    · subst hy
      rw [if_neg (not_not_intro rfl), if_pos rfl, ih, List.find?_cons_of_neg (by simp)]
      exact Iff.rfl
    · have hne : ¬ blank.toNat = y.toNat := fun h => hy (BitVec.eq_of_toNat_eq h.symm)
      rw [if_pos hy, if_neg hne, List.find?_cons_of_pos (by simpa using hy)]
      constructor
      · intro h c hc
        obtain rfl := Option.some.inj hc
        by_contra hle
        rw [if_neg fun hlt => hle (BitVec.lt_def.mpr hlt)] at h
        exact absurd h (by decide)
      · intro h
        exact (if_pos (BitVec.lt_def.mp (h y rfl))).symm

theorem restResult_eq_zero_iff (b : List Byte) :
    restResult (-1) b = 0 ↔ restSign blank.toNat (b.map BitVec.toNat) = 0 := by
  induction b with
  | nil => exact iff_of_true rfl rfl
  | cons y b ih =>
    rw [restResult, List.map_cons, restSign]
    by_cases hy : y = blank
    · subst hy
      rw [if_neg (not_not_intro rfl), if_pos rfl, ih]
    · have hne : ¬ blank.toNat = y.toNat := fun h => hy (BitVec.eq_of_toNat_eq h.symm)
      rw [if_pos hy, if_neg hne]
      split <;> decide

/-- The result is the comparison exactly when the rest of the longer string allows it. -/
theorem compared_eq_iff (a b : List Byte) : compared a b = lexSign a b ↔ Ordered a b := by
  rw [lexSign, sign_eq_letterSign]
  induction a generalizing b with
  | nil =>
    rw [compared, List.map_nil, letterSign, restResult_eq_iff, Ordered]
    simp
  | cons x a ih =>
    cases b with
    | nil =>
      rw [compared, restResult_neg, List.map_nil, List.map_cons, letterSign, neg_inj,
        ← List.map_cons, restResult_eq_iff, Ordered]
      simp
    | cons y b =>
      rw [compared, List.map_cons, List.map_cons, letterSign]
      by_cases hxy : x = y
      · subst hxy
        rw [if_neg (not_not_intro rfl), if_pos rfl, ih b, Ordered, Ordered]
        simp
      · have hne : ¬ x.toNat = y.toNat := fun h => hxy (BitVec.eq_of_toNat_eq h)
        rw [if_pos hxy, if_neg hne]
        refine iff_of_true rfl fun h => ?_
        simp only [List.length_cons, List.take_succ_cons, List.cons.injEq] at h
        exact absurd h.1 hxy

theorem compared_eq_zero_iff (a b : List Byte) : compared a b = 0 ↔ Same blank a b := by
  have hinj : Function.Injective (BitVec.toNat : Byte → Nat) := fun x y => BitVec.eq_of_toNat_eq
  rw [← same_map_iff hinj, ← sign_zero_iff_same, sign_eq_letterSign]
  induction a generalizing b with
  | nil => exact restResult_eq_zero_iff b
  | cons x a ih =>
    cases b with
    | nil =>
      rw [compared, restResult_neg, List.map_nil, List.map_cons, letterSign, neg_eq_zero,
        neg_eq_zero, ← List.map_cons]
      exact restResult_eq_zero_iff (x :: a)
    | cons y b =>
      rw [compared, List.map_cons, List.map_cons, letterSign]
      by_cases hxy : x = y
      · subst hxy
        rw [if_neg (not_not_intro rfl), if_pos rfl]
        exact ih b
      · have hne : ¬ x.toNat = y.toNat := fun h => hxy (BitVec.eq_of_toNat_eq h)
        rw [if_pos hxy, if_neg hne]
        exact Iff.rfl

theorem compared_swap (a b : List Byte) : compared b a = -compared a b := by
  induction a generalizing b with
  | nil =>
    cases b with
    | nil => rfl
    | cons y b => exact restResult_neg (y :: b)
  | cons x a ih =>
    cases b with
    | nil =>
      rw [compared, compared, restResult_neg, neg_neg]
    | cons y b =>
      rw [compared, compared]
      by_cases hxy : x = y
      · subst hxy
        rw [if_neg (not_not_intro rfl), if_neg (not_not_intro rfl), ih b]
      · have hne : x.toNat ≠ y.toNat := fun h => hxy (BitVec.eq_of_toNat_eq h)
        rw [if_pos hxy, if_pos (Ne.symm hxy)]
        simp only [BitVec.lt_def]
        split_ifs <;> omega

/-- `str$compare` of the strings `a` and `b` returns `x`, wherever they are. -/
def Compares (a b : List Byte) (x : Int) : Prop :=
  ∀ m first second p q, Text m first p a → Text m second q b → strCompare m first second = .ok x

/-- Two strings behind each other, from address 1 on. -/
def pairMemory (a b : List Byte) : Memory := fun i => (a ++ b).getD (i - 1) 0

theorem pairMemory_first {a b : List Byte} (ha : a.length < 65536) :
    Text (pairMemory a b) ⟨BitVec.ofNat 16 a.length, .s, 1⟩ 1 a := by
  apply Text.of_bytes (by decide) ha
  refine bytesAt_eq_iff.mpr ⟨rfl, fun i hi => ?_⟩
  have hi' : i < a.length + b.length := by omega
  simp [pairMemory, hi, hi']

theorem pairMemory_second {a b : List Byte} (hb : b.length < 65536) :
    Text (pairMemory a b) ⟨BitVec.ofNat 16 b.length, .s, 1 + a.length⟩ (1 + a.length) b := by
  apply Text.of_bytes (by omega) hb
  refine bytesAt_eq_iff.mpr ⟨rfl, fun i hi => ?_⟩
  have hindex : 1 + a.length + i - 1 = a.length + i := by omega
  simp [pairMemory, hindex, hi]

theorem compares_iff {a b : List Byte} (ha : a.length < 65536) (hb : b.length < 65536) (x : Int) :
    Compares a b x ↔ compared a b = x := by
  constructor
  · intro h
    have hx := h _ _ _ _ _ (@pairMemory_first a b ha) (pairMemory_second hb)
    rw [strCompare_eq (pairMemory_first ha) (pairMemory_second hb)] at hx
    exact Except.ok.inj hx
  · rintro rfl m first second p q hfirst hsecond
    exact strCompare_eq hfirst hsecond

/-- What sorting the strings of `S` relies on. -/
structure Sorts (S : List Byte → Prop) : Prop where
  sign : ∀ a b, S a → S b → Compares a b (lexSign a b)
  antisymmetric : ∀ a b x, S a → S b → Compares a b x → Compares b a (-x)
  transitive : ∀ a b c x y z, S a → S b → S c → Compares a b x → Compares b c y → Compares a c z →
    x ≤ 0 → y ≤ 0 → z ≤ 0
  zero : ∀ a b, S a → S b → (Compares a b 0 ↔ Same blank a b)

theorem ordered_of_sorts {S : List Byte → Prop} (hS : ∀ a, S a → a.length < 65536)
    (h : Sorts S) (a b : List Byte) (ha : S a) (hb : S b) : Ordered a b := by
  have hsign := h.sign a b ha hb
  rw [compares_iff (hS a ha) (hS b hb)] at hsign
  exact (compared_eq_iff a b).mp hsign

/-- **Comparison.** `str$compare` orders a set of strings as it should exactly when, wherever one of
them goes on at the end of another, it goes on above the blank. -/
theorem sorts_iff (S : List Byte → Prop) (hS : ∀ a, S a → a.length < 65536) :
    Sorts S ↔ ∀ a b, S a → S b → Ordered a b := by
  constructor
  · exact ordered_of_sorts hS
  · intro h
    have hcompared : ∀ a b, S a → S b → compared a b = lexSign a b :=
      fun a b ha hb => (compared_eq_iff a b).mpr (h a b ha hb)
    constructor
    · intro a b ha hb
      rw [compares_iff (hS a ha) (hS b hb)]
      exact hcompared a b ha hb
    · intro a b x ha hb hx
      rw [compares_iff (hS a ha) (hS b hb)] at hx
      rw [compares_iff (hS b hb) (hS a ha), compared_swap, hx]
    · intro a b c x y z ha hb hc hx hy hz hx0 hy0
      rw [compares_iff (hS a ha) (hS b hb), hcompared a b ha hb] at hx
      rw [compares_iff (hS b hb) (hS c hc), hcompared b c hb hc] at hy
      rw [compares_iff (hS a ha) (hS c hc), hcompared a c ha hc] at hz
      subst hx hy hz
      exact sign_trans hx0 hy0
    · intro a b ha hb
      rw [compares_iff (hS a ha) (hS b hb)]
      exact compared_eq_zero_iff a b

theorem sorts_iff_abc :
    Sorts (fun a => a = [65] ∨ a = [65, 66, 67]) ↔
      ∀ a b, a = [65] ∨ a = [65, 66, 67] → b = [65] ∨ b = [65, 66, 67] → Ordered a b :=
  sorts_iff (fun a => a = [65] ∨ a = [65, 66, 67]) (by rintro a (rfl | rfl) <;> decide)

/-- The empty string comes before a tab, a tab before a blank, and a blank is the empty string. -/
theorem tab_not_sorted : ¬ Sorts (fun a => a = [] ∨ a = [9] ∨ a = [32]) := by
  intro h
  have htab := ordered_of_sorts (by rintro a (rfl | rfl | rfl) <;> decide) h [] [9] (Or.inl rfl)
    (Or.inr (Or.inl rfl)) rfl 9 rfl
  revert htab
  decide

end FreeVMS.Rtl.Str
