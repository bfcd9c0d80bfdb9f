import Mathlib.Data.List.Basic
import Mathlib.Data.List.Nodup
import Mathlib.Data.List.Pairwise

/-!
# Sorted sets and search trees

A comparison in the manner of `strcmp`, sets as lists in the order of such a comparison, and
binary trees, whose in-order list is such a set.  A set keeps the first of several equal elements.
-/

namespace FreeVMS.SearchTree

variable {α β : Type}

/-- A comparison whose sign is that of a total preorder. -/
structure Consistent (cmp : α → α → Int) : Prop where
  swap : ∀ a b, cmp a b < 0 ↔ 0 < cmp b a
  trans : ∀ a b c, cmp a b ≤ 0 → cmp b c ≤ 0 → cmp a c ≤ 0

namespace Consistent

variable {cmp : α → α → Int} (h : Consistent cmp) {a b c : α}
include h

theorem refl (a : α) : cmp a a = 0 := by
  have := h.swap a a
  omega

theorem eq_swap (hab : cmp a b = 0) : cmp b a = 0 := by
  have h₁ := h.swap a b
  have h₂ := h.swap b a
  omega

theorem eq_trans (hab : cmp a b = 0) (hbc : cmp b c = 0) : cmp a c = 0 := by
  have hac := h.trans a b c (Int.le_of_eq hab) (Int.le_of_eq hbc)
  have hca := h.trans c b a (Int.le_of_eq (h.eq_swap hbc)) (Int.le_of_eq (h.eq_swap hab))
  have := h.swap a c
  omega

theorem lt_of_lt_of_le (hab : cmp a b < 0) (hbc : cmp b c ≤ 0) : cmp a c < 0 := by
  have hac := h.trans a b c (Int.le_of_lt hab) hbc
  by_contra hn
  have hca : cmp c a ≤ 0 := by have := h.swap a c; have := h.swap c a; omega
  have hba := h.trans b c a hbc hca
  have := (h.swap a b).mp hab
  omega

/-- The comparison of a part. -/
theorem on (f : β → α) : Consistent (fun a b => cmp (f a) (f b)) :=
  ⟨fun a b => h.swap (f a) (f b), fun a b c => h.trans (f a) (f b) (f c)⟩

end Consistent

/-- The elements are in strictly increasing order. -/
def Sorted (cmp : α → α → Int) (l : List α) : Prop := l.Pairwise (fun a b => cmp a b < 0)

/-- Add an element to a sorted set, unless it has an equal one. -/
def sortedInsert (cmp : α → α → Int) (a : α) : List α → List α
  | [] => [a]
  | x :: xs =>
      if cmp a x < 0 then a :: x :: xs
      else if cmp a x = 0 then x :: xs
      else x :: sortedInsert cmp a xs

section SortedInsert

variable {cmp : α → α → Int} {a x : α} {xs ys : List α}

theorem sortedInsert_of_mem (hc : Consistent cmp) (hs : Sorted cmp xs) (hx : x ∈ xs)
    (hax : cmp a x = 0) : sortedInsert cmp a xs = xs := by
  induction xs with
  | nil => exact absurd hx List.not_mem_nil
  | cons y ys ih =>
    rw [sortedInsert]
    rcases List.mem_cons.mp hx with rfl | hmem
    · simp [hax]
    · have hyx : cmp y x < 0 := List.rel_of_pairwise_cons hs hmem
      have hya : cmp y a < 0 := hc.lt_of_lt_of_le hyx (Int.le_of_eq (hc.eq_swap hax))
      have hay := (hc.swap y a).mp hya
      rw [if_neg (by omega), if_neg (by omega), ih hs.of_cons hmem]

theorem perm_sortedInsert (hno : ∀ x ∈ xs, cmp a x ≠ 0) :
    (sortedInsert cmp a xs).Perm (a :: xs) := by
  induction xs with
  | nil => exact .refl _
  | cons y ys ih =>
    rw [sortedInsert]
    split
    · exact .refl _
    · rw [if_neg (hno y List.mem_cons_self)]
      exact ((ih fun x hx => hno x (List.mem_cons_of_mem _ hx)).cons y).trans (.swap a y ys)

theorem mem_sortedInsert (h : x ∈ sortedInsert cmp a xs) : x = a ∨ x ∈ xs := by
  induction xs with
  | nil => exact .inl (List.mem_singleton.mp h)
  | cons y ys ih =>
    rw [sortedInsert] at h
    split at h
    · exact List.mem_cons.mp h
    · split at h
      · exact .inr h
      · rcases List.mem_cons.mp h with rfl | h
        · exact .inr List.mem_cons_self
        · exact (ih h).imp_right (List.mem_cons_of_mem _)

theorem subset_sortedInsert (h : x ∈ xs) : x ∈ sortedInsert cmp a xs := by
  induction xs with
  | nil => exact absurd h List.not_mem_nil
  | cons y ys ih =>
    rw [sortedInsert]
    split
    · exact List.mem_cons_of_mem _ h
    · split
      · exact h
      · rcases List.mem_cons.mp h with rfl | h
        · exact List.mem_cons_self
        · exact List.mem_cons_of_mem _ (ih h)

theorem exists_mem_sortedInsert (hc : Consistent cmp) (a : α) (xs : List α) :
    ∃ x ∈ sortedInsert cmp a xs, cmp a x = 0 := by
  induction xs with
  | nil => exact ⟨a, List.mem_singleton.mpr rfl, hc.refl a⟩
  | cons y ys ih =>
    rw [sortedInsert]
    split
    · exact ⟨a, List.mem_cons_self, hc.refl a⟩
    · split
      case isTrue heq => exact ⟨y, List.mem_cons_self, heq⟩
      case isFalse =>
        obtain ⟨x, hx, heq⟩ := ih
        exact ⟨x, List.mem_cons_of_mem _ hx, heq⟩

theorem length_sortedInsert_le (a : α) (xs : List α) :
    (sortedInsert cmp a xs).length ≤ xs.length + 1 := by
  induction xs with
  | nil => exact Nat.le_refl _
  | cons y ys ih =>
    rw [sortedInsert]
    split
    · simp
    · split <;> simp [ih]

theorem Sorted.insert (hc : Consistent cmp) (hs : Sorted cmp xs) :
    Sorted cmp (sortedInsert cmp a xs) := by
  induction xs with
  | nil => exact List.pairwise_singleton _ _
  | cons y ys ih =>
    rw [sortedInsert]
    split
    case isTrue hlt =>
      refine List.Pairwise.cons (fun x hx => ?_) hs
      rcases List.mem_cons.mp hx with rfl | hx
      · exact hlt
      · exact hc.lt_of_lt_of_le hlt (Int.le_of_lt (List.rel_of_pairwise_cons hs hx))
    case isFalse hlt =>
      split
      · exact hs
      · refine List.Pairwise.cons (fun x hx => ?_) (ih hs.of_cons)
        rcases mem_sortedInsert hx with rfl | hx
        · have := hc.swap y x; omega
        · exact List.rel_of_pairwise_cons hs hx

/-- Below the element in the middle, the insertion is one into the lower part. -/
theorem sortedInsert_append_of_lt (h : cmp a x < 0) :
    sortedInsert cmp a (xs ++ x :: ys) = sortedInsert cmp a xs ++ x :: ys := by
  induction xs with
  | nil => simp [sortedInsert, h]
  | cons y zs ih =>
    simp only [List.cons_append, sortedInsert, ih]
    split
    · rfl
    · split <;> rfl

/-- Above it, one into the upper part. -/
theorem sortedInsert_append_of_gt (hc : Consistent cmp) (hs : Sorted cmp (xs ++ x :: ys))
    (h : 0 < cmp a x) : sortedInsert cmp a (xs ++ x :: ys) = xs ++ x :: sortedInsert cmp a ys := by
  induction xs with
  | nil =>
    rw [List.nil_append, sortedInsert, if_neg (by omega), if_neg (by omega)]
    rfl
  | cons y zs ih =>
    have hyx : cmp y x < 0 := List.rel_of_pairwise_cons hs (by simp)
    have hya : cmp y a < 0 := hc.lt_of_lt_of_le hyx (Int.le_of_lt ((hc.swap x a).mpr h))
    have hay := (hc.swap y a).mp hya
    rw [List.cons_append, sortedInsert, if_neg (by omega), if_neg (by omega), ih hs.of_cons]
    rfl

end SortedInsert

/-- Binary trees. -/
inductive Tree (α : Type) where
  | nil
  | node (left : Tree α) (val : α) (right : Tree α)

namespace Tree

/-- The in-order list. -/
def toList : Tree α → List α
  | nil => []
  | node l a r => l.toList ++ a :: r.toList

def height : Tree α → Nat
  | nil => 0
  | node l _ r => max l.height r.height + 1

@[simp] theorem toList_node (l r : Tree α) (a : α) :
    (node l a r).toList = l.toList ++ a :: r.toList := rfl

@[simp] theorem height_nil : (nil : Tree α).height = 0 := rfl

@[simp] theorem height_node (l r : Tree α) (a : α) :
    (node l a r).height = max l.height r.height + 1 := rfl

theorem height_le_length (t : Tree α) : t.height ≤ t.toList.length := by
  induction t with
  | nil => exact Nat.le_refl _
  | node l a r ihl ihr =>
    rw [height_node, toList_node, List.length_append, List.length_cons]
    omega

theorem height_eq_zero {t : Tree α} : t.height = 0 ↔ t = nil := by
  cases t <;> simp

end Tree

end FreeVMS.SearchTree
