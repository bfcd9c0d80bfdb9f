import Mathlib.Data.List.Lex
import Mathlib.Order.Lattice

/-!
# The order of padded words

Words are compared letter by letter, and the shorter one counts as padded with one letter. This is
a linear preorder: two words are equal in it when they differ in padding only.
-/

namespace FreeVMS.Lib.PaddedOrder

section words

variable {α : Type}

/-- The word with `fill` behind it, up to the length `n`. -/
def pad (fill : α) (n : Nat) (a : List α) : List α := a ++ List.replicate (n - a.length) fill

/-- The two words differ in padding only. -/
def Same (fill : α) (a b : List α) : Prop :=
  ∃ m n, a ++ List.replicate m fill = b ++ List.replicate n fill

theorem pad_nil_succ (fill : α) (n : Nat) : pad fill (n + 1) [] = fill :: pad fill n [] := by
  simp [pad, List.replicate_succ]

theorem pad_cons_succ (fill x : α) (n : Nat) (a : List α) :
    pad fill (n + 1) (x :: a) = x :: pad fill n a := by
  simp [pad]

/-- Renaming letters does not matter as long as they stay different. -/
theorem same_map_iff {β : Type} {f : α → β} (hf : Function.Injective f) (fill : α) (a b : List α) :
    Same (f fill) (a.map f) (b.map f) ↔ Same fill a b := by
  apply exists_congr
  intro m
  apply exists_congr
  intro n
  rw [← List.map_replicate, ← List.map_replicate, ← List.map_append, ← List.map_append]
  exact (List.map_injective_iff.mpr hf).eq_iff

end words

variable {α : Type} [LinearOrder α] {fill : α} {a b c : List α} {n : Nat}

/-- The sign of a comparison: -1 for less, 1 for greater. -/
def signOf (a b : List α) : Int := if a < b then -1 else if b < a then 1 else 0

/-- The sign of the lexicographic comparison after the shorter word has been padded. -/
def sign (fill : α) (a b : List α) : Int :=
  signOf (pad fill (max a.length b.length) a) (pad fill (max a.length b.length) b)

/-- The sign of the comparison of the empty word with another one. -/
def restSign (fill : α) : List α → Int
  | [] => 0
  | y :: b => if fill = y then restSign fill b else if fill < y then -1 else 1

/-- The comparison letter by letter. -/
def letterSign (fill : α) : List α → List α → Int
  | [], b => restSign fill b
  | x :: a, [] => -restSign fill (x :: a)
  | x :: a, y :: b => if x = y then letterSign fill a b else if x < y then -1 else 1

theorem signOf_swap (a b : List α) : signOf b a = -signOf a b := by
  unfold signOf
  rcases lt_trichotomy a b with h | rfl | h
  · simp [h, h.not_gt]
  · simp
  · simp [h, h.not_gt]

theorem signOf_cons (x y : α) (a b : List α) :
    signOf (x :: a) (y :: b) = if x = y then signOf a b else if x < y then -1 else 1 := by
  simp only [signOf, List.cons_lt_cons_iff]
  rcases lt_trichotomy x y with h | rfl | h
  · simp [h, h.ne]
  · simp
  · simp [h, h.ne', h.not_gt]

theorem signOf_pad_nil (h : b.length ≤ n) :
    signOf (pad fill n []) (pad fill n b) = restSign fill b := by
  induction n generalizing b with
  | zero =>
    rw [List.eq_nil_of_length_eq_zero (Nat.le_zero.mp h)]
    simp [signOf, restSign]
  | succ n ih =>
    cases b with
    | nil =>
      rw [pad_nil_succ, signOf_cons, if_pos rfl]
      exact ih (Nat.zero_le _)
    | cons y b =>
      rw [pad_nil_succ, pad_cons_succ, signOf_cons, restSign, ih (Nat.le_of_succ_le_succ h)]

/-- Any length that both words fit in does. -/
theorem signOf_pad (ha : a.length ≤ n) (hb : b.length ≤ n) :
    signOf (pad fill n a) (pad fill n b) = letterSign fill a b := by
  induction a generalizing b n with
  | nil => exact signOf_pad_nil hb
  | cons x a ih =>
    cases b with
    | nil => rw [signOf_swap, signOf_pad_nil ha, letterSign]
    | cons y b =>
      obtain ⟨n, rfl⟩ := Nat.exists_eq_succ_of_ne_zero (Nat.ne_of_gt (Nat.lt_of_lt_of_le
        (Nat.succ_pos _) ha))
      rw [pad_cons_succ, pad_cons_succ, signOf_cons, letterSign,
        ih (Nat.le_of_succ_le_succ ha) (Nat.le_of_succ_le_succ hb)]

theorem sign_eq_letterSign (fill : α) (a b : List α) : sign fill a b = letterSign fill a b :=
  signOf_pad (Nat.le_max_left _ _) (Nat.le_max_right _ _)

theorem sign_eq_signOf (ha : a.length ≤ n) (hb : b.length ≤ n) :
    sign fill a b = signOf (pad fill n a) (pad fill n b) := by
  rw [sign_eq_letterSign, signOf_pad ha hb]

theorem signOf_nonpos_iff : signOf a b ≤ 0 ↔ a ≤ b := by
  unfold signOf
  rcases lt_trichotomy a b with h | rfl | h
  · simp [h, h.le]
  · simp
  · simp [h, h.not_gt, h.not_ge]

theorem signOf_eq_zero_iff : signOf a b = 0 ↔ a = b := by
  unfold signOf
  rcases lt_trichotomy a b with h | rfl | h
  · simp [h, h.ne]
  · simp
  · simp [h, h.not_gt, h.ne']

theorem sign_trans (hab : sign fill a b ≤ 0) (hbc : sign fill b c ≤ 0) : sign fill a c ≤ 0 := by
  have ha : a.length ≤ max (max a.length b.length) c.length := by omega
  have hb : b.length ≤ max (max a.length b.length) c.length := by omega
  have hc : c.length ≤ max (max a.length b.length) c.length := by omega
  rw [sign_eq_signOf ha hb, signOf_nonpos_iff] at hab
  rw [sign_eq_signOf hb hc, signOf_nonpos_iff] at hbc
  rw [sign_eq_signOf ha hc, signOf_nonpos_iff]
  exact hab.trans hbc

theorem sign_zero_iff_same : sign fill a b = 0 ↔ Same fill a b := by
  constructor
  · intro h
    rw [sign, signOf_eq_zero_iff] at h
    exact ⟨_, _, h⟩
  · rintro ⟨m, n, h⟩
    have hlength := congrArg List.length h
    rw [List.length_append, List.length_append, List.length_replicate, List.length_replicate]
      at hlength
    rw [sign_eq_signOf (Nat.le_add_right a.length m) (by omega), signOf_eq_zero_iff, pad, pad,
      Nat.add_sub_cancel_left, h, hlength, Nat.add_sub_cancel_left]

end FreeVMS.Lib.PaddedOrder
