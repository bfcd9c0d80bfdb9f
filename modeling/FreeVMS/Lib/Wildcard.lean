import Mathlib.Data.List.Basic

/-!
# Wildcard patterns

Patterns of letters and wildcards, and how strings match them. In a match every wildcard for many
letters stands for some extent; a matcher that does not try all of them allows a few only, and what
it finds is a match all the same.
-/

namespace FreeVMS.Lib.Wildcard

/-- What a pattern consists of. -/
inductive Token (α : Type) where
  /-- any string -/
  | many
  /-- any letter -/
  | one
  | letter (a : α)
  deriving DecidableEq, Repr

variable {α : Type}

/-- How a string matches a pattern if `allowed e s p` tells that a wildcard may stand for `e` in front
    of `s`, with the pattern `p` behind it. -/
inductive Derives (allowed : List α → List α → List (Token α) → Prop) :
    List α → List (Token α) → Prop
  | nil : Derives allowed [] []
  | letter {a : α} {s : List α} {p : List (Token α)} :
      Derives allowed s p → Derives allowed (a :: s) (.letter a :: p)
  | one {a : α} {s : List α} {p : List (Token α)} :
      Derives allowed s p → Derives allowed (a :: s) (.one :: p)
  | many {e t s : List α} {p : List (Token α)} :
      s = e ++ t → allowed e t p → Derives allowed t p → Derives allowed s (.many :: p)

/-- The language of a pattern: every extent is allowed. -/
def Matches (s : List α) (p : List (Token α)) : Prop := Derives (fun _ _ _ => True) s p

variable {allowed allowed' : List α → List α → List (Token α) → Prop} {s : List α}
  {p : List (Token α)}

/-- With more extents allowed there are more matches. -/
theorem Derives.mono (h : Derives allowed s p) (himp : ∀ e s p, allowed e s p → allowed' e s p) :
    Derives allowed' s p := by
  induction h with
  | nil => exact .nil
  | letter _ ih => exact .letter ih
  | one _ ih => exact .one ih
  | many hs he _ ih => exact .many hs (himp _ _ _ he) ih

/-- **Whatever the extents**, a match is one. -/
theorem Derives.matches (h : Derives allowed s p) : Matches s p := h.mono fun _ _ _ _ => trivial

theorem derives_end_iff : Derives allowed s [] ↔ s = [] := by
  constructor
  · intro h
    cases h
    rfl
  · rintro rfl
    exact .nil

theorem not_derives_nil_letter {a : α} : ¬ Derives allowed [] (.letter a :: p) := by
  intro h
  cases h

theorem not_derives_nil_one : ¬ Derives allowed [] (.one :: p) := by
  intro h
  cases h

theorem derives_letter_iff {a c : α} :
    Derives allowed (c :: s) (.letter a :: p) ↔ c = a ∧ Derives allowed s p := by
  constructor
  · intro h
    cases h with
    | letter h => exact ⟨rfl, h⟩
  · rintro ⟨rfl, h⟩
    exact .letter h

theorem derives_one_iff {c : α} :
    Derives allowed (c :: s) (.one :: p) ↔ Derives allowed s p := by
  constructor
  · intro h
    cases h with
    | one h => exact h
  · exact .one

theorem derives_many_iff : Derives allowed s (.many :: p) ↔
    ∃ e t, s = e ++ t ∧ allowed e t p ∧ Derives allowed t p := by
  constructor
  · intro h
    cases h with
    | many hs he ht => exact ⟨_, _, hs, he, ht⟩
  · rintro ⟨e, t, hs, he, ht⟩
    exact .many hs he ht

end FreeVMS.Lib.Wildcard
