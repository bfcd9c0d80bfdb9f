import Mathlib.Data.List.Infix
import Mathlib.Order.Bounds.Basic

/-!
# Occurrences

The positions, counted from 1, at which a list is in another one, and the first position from some
place on with a property, which is 0 when there is none.
-/

namespace FreeVMS.Lib.Occurrence

variable {α : Type} {u s : List α} {P : Nat → Prop} {k k' p r r' : Nat}

/-- `u` is in `s` at the position `p`. -/
def Occurs (u s : List α) (p : Nat) : Prop := 1 ≤ p ∧ u <+: s.drop (p - 1)

instance [DecidableEq α] (u s : List α) (p : Nat) : Decidable (Occurs u s p) :=
  inferInstanceAs (Decidable (1 ≤ p ∧ u <+: s.drop (p - 1)))

/-- The first position from `k` on with the property `P`, or 0. -/
def FirstFrom (P : Nat → Prop) (k r : Nat) : Prop :=
  IsLeast {p | k ≤ p ∧ P p} r ∨ r = 0 ∧ ∀ p, k ≤ p → ¬ P p

theorem Occurs.le (h : Occurs u s p) (hu : u ≠ []) : p + u.length ≤ s.length + 1 := by
  have hlength := h.2.length_le
  have hpos := List.length_pos_iff.mpr hu
  rw [List.length_drop] at hlength
  omega

theorem occurs_iff_take (hp : 1 ≤ p) : Occurs u s p ↔ (s.drop (p - 1)).take u.length = u := by
  rw [Occurs, List.prefix_iff_eq_take]
  exact ⟨fun h => h.2.symm, fun h => ⟨hp, h.symm⟩⟩

theorem FirstFrom.unique (h : FirstFrom P k r) (h' : FirstFrom P k r') : r = r' := by
  rcases h with h | ⟨rfl, h⟩
  · rcases h' with h' | ⟨rfl, h'⟩
    · exact h.unique h'
    · exact absurd h.1.2 (h' r h.1.1)
  · rcases h' with h' | ⟨rfl, h'⟩
    · exact absurd h'.1.2 (h r' h'.1.1)
    · rfl

/-- What is found fits in. -/
theorem FirstFrom.le (h : FirstFrom (Occurs u s) k r) (hu : u ≠ []) (hr : r ≠ 0) :
    r + u.length ≤ s.length + 1 := by
  rcases h with h | ⟨hzero, -⟩
  · exact h.1.2.le hu
  · exact absurd hzero hr

theorem FirstFrom.here (h : P k) : FirstFrom P k k :=
  Or.inl ⟨⟨Nat.le_refl k, h⟩, fun _ hp => hp.1⟩

theorem FirstFrom.none (h : ∀ p, k ≤ p → ¬ P p) : FirstFrom P k 0 :=
  Or.inr ⟨rfl, h⟩

/-- The search may start later when there is nothing in between. -/
theorem firstFrom_skip (hk : k ≤ k') (h : ∀ p, k ≤ p → p < k' → ¬ P p) :
    FirstFrom P k r ↔ FirstFrom P k' r := by
  have hiff : ∀ p, k ≤ p ∧ P p ↔ k' ≤ p ∧ P p := by
    intro p
    constructor
    · rintro ⟨hp, hP⟩
      exact ⟨Nat.le_of_not_lt fun hlt => h p hp hlt hP, hP⟩
    · exact fun hp => ⟨Nat.le_trans hk hp.1, hp.2⟩
  have hnone : (∀ p, k ≤ p → ¬ P p) ↔ ∀ p, k' ≤ p → ¬ P p := by
    constructor
    · exact fun hP p hp => hP p (Nat.le_trans hk hp)
    · exact fun hP p hp hPp => hP p ((hiff p).mp ⟨hp, hPp⟩).1 hPp
  rw [FirstFrom, FirstFrom, hnone]
  simp only [hiff]

theorem FirstFrom.next (h : ¬ P k) (hrest : FirstFrom P (k + 1) r) : FirstFrom P k r := by
  refine (firstFrom_skip (Nat.le_succ k) fun p hp hlt => ?_).mpr hrest
  obtain rfl : p = k := by omega
  exact h

end FreeVMS.Lib.Occurrence
