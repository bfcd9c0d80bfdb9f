import FreeVMS.Lib.Occurrence
import Mathlib.Data.List.Count

/-!
# Doubled marks

A list with every mark in it doubled, and where the next mark is.
-/

namespace FreeVMS.Lib.Doubling

open Occurrence

variable {α : Type} {x y : α} {s t : List α} {n k r : Nat}

/-! ## The next mark -/

theorem occurs_singleton_iff {p : Nat} : Occurs [x] s p ↔ 1 ≤ p ∧ s[p - 1]? = some x := by
  rw [Occurs, ← List.head?_drop]
  cases s.drop (p - 1) with
  | nil => simp
  | cons y rest => simp [eq_comm]

/-- Behind a front part the mark is found behind what has no mark in it. -/
theorem firstFrom_mark {front : List α} (b c : List α) (hb : x ∉ b) :
    FirstFrom (Occurs [x] (front ++ (b ++ x :: c))) (front.length + 1)
      (front.length + b.length + 1) := by
  have hget : ∀ i, (front ++ (b ++ x :: c))[front.length + i]? = (b ++ x :: c)[i]? := fun i => by
    rw [List.getElem?_append_right (Nat.le_add_right _ _), Nat.add_sub_cancel_left]
  refine Or.inl ⟨⟨by omega, occurs_singleton_iff.mpr ⟨by omega, ?_⟩⟩, ?_⟩
  · rw [Nat.add_sub_cancel, hget, List.getElem?_append_right (Nat.le_refl _), Nat.sub_self]
    rfl
  · rintro p ⟨hp, hoccurs⟩
    by_contra hlt
    obtain ⟨i, rfl⟩ : ∃ i, p = front.length + i + 1 := ⟨p - front.length - 1, by omega⟩
    have hi : i < b.length := by omega
    have hmark := (occurs_singleton_iff.mp hoccurs).2
    rw [Nat.add_sub_cancel, hget, List.getElem?_append_left hi] at hmark
    exact hb (List.mem_of_getElem? hmark)

/-- Or there is none. -/
theorem firstFrom_no_mark {front : List α} (ht : x ∉ t) :
    FirstFrom (Occurs [x] (front ++ t)) (front.length + 1) 0 := by
  apply FirstFrom.none
  intro p hp hoccurs
  have hmark := (occurs_singleton_iff.mp hoccurs).2
  rw [List.getElem?_append_right (by omega)] at hmark
  exact ht (List.mem_of_getElem? hmark)

/-- What a search behind the front part says. -/
theorem firstFrom_mark_cases {front : List α}
    (h : FirstFrom (Occurs [x] (front ++ t)) (front.length + 1) r) :
    (x ∉ t ∧ r = 0) ∨
      ∃ b c, x ∉ b ∧ t = b ++ x :: c ∧ r = front.length + b.length + 1 := by
  by_cases ht : x ∈ t
  · obtain ⟨b, c, rfl, hb⟩ := List.eq_append_cons_of_mem ht
    exact Or.inr ⟨b, c, hb, rfl, h.unique (firstFrom_mark b c hb)⟩
  · exact Or.inl ⟨ht, h.unique (firstFrom_no_mark ht)⟩

/-- A mark that is there is found. -/
theorem firstFrom_ne_zero (h : FirstFrom (Occurs [x] s) 1 r) (hx : x ∈ s) : r ≠ 0 := by
  rcases @firstFrom_mark_cases _ _ _ _ [] h with ⟨hnone, -⟩ | ⟨b, c, -, -, hr⟩
  · exact absurd hx hnone
  · omega

/-! ## Doubling -/

variable [DecidableEq α]

/-- The list with every `x` doubled. -/
def doubled (x : α) (s : List α) : List α := s.flatMap fun y => if y = x then [x, x] else [y]

theorem doubled_cons_self : doubled x (x :: s) = x :: x :: doubled x s := by
  rw [doubled, List.flatMap_cons, if_pos rfl]
  rfl

theorem doubled_cons_ne (h : y ≠ x) : doubled x (y :: s) = y :: doubled x s := by
  rw [doubled, List.flatMap_cons, if_neg h]
  rfl

theorem doubled_append : doubled x (s ++ t) = doubled x s ++ doubled x t := List.flatMap_append

theorem length_doubled (x : α) (s : List α) : (doubled x s).length = s.length + s.count x := by
  induction s with
  | nil => rfl
  | cons y s ih =>
    by_cases h : y = x
    · subst h
      rw [doubled_cons_self, List.length_cons, List.length_cons, ih, List.length_cons,
        List.count_cons_self]
      omega
    · rw [doubled_cons_ne h, List.length_cons, ih, List.length_cons, List.count_cons_of_ne h]
      omega

theorem doubled_of_not_mem (h : x ∉ s) : doubled x s = s := by
  induction s with
  | nil => rfl
  | cons y s ih =>
    rw [List.mem_cons, not_or] at h
    rw [doubled_cons_ne (Ne.symm h.1), ih h.2]

/-- A part without a mark, and the mark behind it. -/
theorem doubled_mark {a : List α} (ha : x ∉ a) (t : List α) :
    doubled x (a ++ x :: t) = a ++ x :: x :: doubled x t := by
  rw [doubled_append, doubled_of_not_mem ha, doubled_cons_self]

theorem count_mark {a : List α} (ha : x ∉ a) (t : List α) :
    (a ++ x :: t).count x = t.count x + 1 := by
  rw [List.count_append, List.count_eq_zero_of_not_mem ha, Nat.zero_add, List.count_cons_self]

theorem doubled_replicate (x : α) (n : Nat) :
    doubled x (List.replicate n x) = List.replicate (2 * n) x := by
  induction n with
  | zero => rfl
  | succ n ih =>
    rw [List.replicate_succ, doubled_cons_self, ih]
    rfl

/-! ## Doubling at the end only -/

/-- Once there are more marks than there were, only marks may follow. -/
theorem all_marks_of_take (hk : 0 < k)
    (h : (List.replicate k x ++ doubled x s).take n = s.take n) : ∀ y ∈ s.take n, y = x := by
  induction s generalizing k n with
  | nil =>
    intro y hy
    rw [List.take_nil] at hy
    exact absurd hy List.not_mem_nil
  | cons z s ih =>
    obtain ⟨k, rfl⟩ := Nat.exists_eq_succ_of_ne_zero hk.ne'
    cases n with
    | zero =>
      intro y hy
      exact absurd hy List.not_mem_nil
    | succ n =>
      rw [List.replicate_succ, List.cons_append, List.take_succ_cons, List.take_succ_cons] at h
      obtain ⟨rfl, htail⟩ := List.cons.inj h
      have hmore : List.replicate k x ++ doubled x (x :: s) =
          List.replicate (k + 2) x ++ doubled x s := by
        rw [doubled_cons_self, List.replicate_add, List.append_assoc]
        rfl
      rw [hmore] at htail
      intro y hy
      rw [List.take_succ_cons, List.mem_cons] at hy
      exact hy.elim id (ih (Nat.succ_pos _) htail y)

/-- The doubling does not show in the first `n` places exactly when the marks among them are behind
everything else. -/
theorem take_doubled_iff (hn : n ≤ s.length) :
    (doubled x s).take n = s.take n ↔
      ∃ a k, x ∉ a ∧ s.take n = a ++ List.replicate k x := by
  constructor
  · intro h
    by_cases hx : x ∈ s.take n
    · obtain ⟨a, t, hsplit, ha⟩ := List.eq_append_cons_of_mem hx
      have hs : s = a ++ x :: (t ++ s.drop n) := by
        rw [← List.cons_append, ← List.append_assoc, ← hsplit, List.take_append_drop]
      have hlength : n = a.length + (t.length + 1) := by
        have hl := congrArg List.length hsplit
        rw [List.length_take, List.length_append, List.length_cons, Nat.min_eq_left hn] at hl
        exact hl
      refine ⟨a, t.length + 1, ha, ?_⟩
      rw [hsplit, List.replicate_succ]
      generalize s.drop n = rest at hs
      have htake : (List.replicate 1 x ++ doubled x (t ++ rest)).take t.length =
          (t ++ rest).take t.length := by
        rw [hs, doubled_mark ha, hlength, List.take_length_add_append, List.take_length_add_append,
          List.take_succ_cons, List.take_succ_cons] at h
        exact (List.cons.inj (List.append_cancel_left h)).2
      have hmarks := all_marks_of_take (Nat.succ_pos 0) htake
      rw [List.take_left] at hmarks
      rw [List.eq_replicate_of_mem hmarks, List.length_replicate]
    · exact ⟨s.take n, 0, hx, by simp⟩
  · rintro ⟨a, k, ha, hsplit⟩
    have hlength : n = a.length + k := by
      have hl := congrArg List.length hsplit
      rw [List.length_take, List.length_append, List.length_replicate, Nat.min_eq_left hn] at hl
      exact hl
    have hs : s = a ++ (List.replicate k x ++ s.drop n) := by
      rw [← List.append_assoc, ← hsplit, List.take_append_drop]
    have hdoubled : doubled x s =
        a ++ (List.replicate k x ++ (List.replicate k x ++ doubled x (s.drop n))) := by
      conv_lhs => rw [hs]
      rw [doubled_append, doubled_append, doubled_of_not_mem ha, doubled_replicate,
        ← List.append_assoc (List.replicate k x), List.replicate_append_replicate, Nat.two_mul]
    rw [hsplit, hdoubled, hlength, List.take_length_add_append]
    congr 1
    exact List.take_left' List.length_replicate

end FreeVMS.Lib.Doubling
