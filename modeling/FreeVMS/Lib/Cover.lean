import Mathlib.Logic.Function.Basic
import Mathlib.Algebra.BigOperators.Group.List.Basic
import Mathlib.Algebra.Order.Ring.Nat
import Mathlib.Tactic.Common

/-!
# Counting in a family of lists

Objects kept in numbered lists, each with a weight: `total` adds the weights up.  With the
weight `span`, which is 1 on the addresses of an interval and 0 elsewhere, `total` says at
every address how many of the intervals contain it, so that "at most one" and "exactly one"
are statements about numbers and moving an interval from one place to another is an
equation.
-/

namespace FreeVMS.Cover

variable {α : Type*}

/-- The interval of `n` addresses from `b` on, at address `x`. -/
def span (b n x : Nat) : Nat := if b ≤ x ∧ x < b + n then 1 else 0

theorem span_zero (b x : Nat) : span b 0 x = 0 := if_neg fun h => by omega

theorem span_add (b n m x : Nat) : span b (n + m) x = span b n x + span (b + n) m x := by
  unfold span
  split
  · split
    · rw [if_neg (by omega)]
    · rw [if_pos (by omega)]
  · rw [if_neg (by omega), if_neg (by omega)]

theorem span_le_one (b n x : Nat) : span b n x ≤ 1 := by
  unfold span
  split <;> omega

theorem span_mono {b n b' n' : Nat} (hb : b ≤ b') (hn : b' + n' ≤ b + n ∨ n' = 0) {x : Nat} :
    span b' n' x ≤ span b n x := by
  unfold span
  split <;> split <;> omega

theorem span_eq_one {b n x : Nat} : span b n x = 1 ↔ b ≤ x ∧ x < b + n := by
  unfold span
  split
  · next h => exact ⟨fun _ => h, fun _ => rfl⟩
  · next h => exact ⟨fun h0 => absurd h0 (by decide), fun h' => absurd h' h⟩

theorem span_eq_zero {b n x : Nat} : span b n x = 0 ↔ ¬ (b ≤ x ∧ x < b + n) := by
  rw [← span_eq_one]
  have := span_le_one b n x
  omega

/-- The weight of a list. -/
def weight (w : α → Nat) (l : List α) : Nat := (l.map w).sum

@[simp] theorem weight_nil (w : α → Nat) : weight w [] = 0 := rfl

@[simp] theorem weight_cons (w : α → Nat) (a : α) (l : List α) :
    weight w (a :: l) = w a + weight w l := by simp [weight]

@[simp] theorem weight_append (w : α → Nat) (l l' : List α) :
    weight w (l ++ l') = weight w l + weight w l' := by simp [weight]

theorem le_weight_of_mem {w : α → Nat} {a : α} {l : List α} (h : a ∈ l) : w a ≤ weight w l := by
  induction l with
  | nil => cases h
  | cons b l ih =>
    rw [weight_cons]
    rcases List.mem_cons.mp h with rfl | h
    · omega
    · have := ih h
      omega

theorem weight_eraseIdx {w : α → Nat} {a : α} {l : List α} {p : Nat} (h : l[p]? = some a) :
    weight w (l.eraseIdx p) + w a = weight w l := by
  induction l generalizing p with
  | nil => simp at h
  | cons b l ih =>
    cases p with
    | zero =>
      simp only [List.getElem?_cons_zero, Option.some.injEq] at h
      subst h
      rw [List.eraseIdx_cons_zero, weight_cons]
      omega
    | succ p =>
      rw [List.getElem?_cons_succ] at h
      rw [List.eraseIdx_cons_succ, weight_cons, weight_cons]
      have := ih h
      omega

/-- The weight of the lists `0, …, n - 1`. -/
def total (w : α → Nat) (b : Nat → List α) : Nat → Nat
  | 0 => 0
  | n + 1 => total w b n + weight w (b n)

theorem total_congr {w : α → Nat} {b b' : Nat → List α} {n : Nat} (h : ∀ i < n, b i = b' i) :
    total w b n = total w b' n := by
  induction n with
  | zero => rfl
  | succ n ih =>
    rw [total, total, ih fun i hi => h i (by omega), h n (by omega)]

/-- Exchanging one list changes the total by the difference. -/
theorem total_update (w : α → Nat) (b : Nat → List α) (l : List α) {i n : Nat} (hi : i < n) :
    total w (Function.update b i l) n + weight w (b i) = total w b n + weight w l := by
  induction n with
  | zero => omega
  | succ n ih =>
    rw [total, total]
    by_cases heq : i = n
    · subst heq
      have hsame : total w (Function.update b i l) i = total w b i :=
        total_congr fun j hj => Function.update_of_ne (by omega) _ _
      rw [hsame, Function.update_self]
      omega
    · rw [Function.update_of_ne (fun h => heq h.symm)]
      have := ih (by omega)
      omega

theorem weight_eq_zero {w : α → Nat} {l : List α} (h : ∀ a ∈ l, w a = 0) : weight w l = 0 := by
  induction l with
  | nil => rfl
  | cons a l ih =>
    rw [weight_cons, h a List.mem_cons_self, ih fun b hb => h b (List.mem_cons_of_mem _ hb)]

theorem total_eq_zero {w : α → Nat} {b : Nat → List α} {n : Nat}
    (h : ∀ i < n, ∀ a ∈ b i, w a = 0) : total w b n = 0 := by
  induction n with
  | zero => rfl
  | succ n ih =>
    rw [total, ih fun i hi => h i (by omega), weight_eq_zero (h n (by omega))]

/-- Where no address is counted twice, two objects of the list do not count at the same one. -/
theorem pairwise_of_weight {ι : Type*} {w : ι → α → Nat} {l : List α} (h : ∀ x, weight (w x) l ≤ 1) :
    l.Pairwise fun a b => ∀ x, w x a + w x b ≤ 1 := by
  induction l with
  | nil => exact List.Pairwise.nil
  | cons a l ih =>
    refine List.Pairwise.cons (fun b hb x => ?_) (ih fun x => ?_)
    · have hcons := h x
      have hle : w x b ≤ weight (w x) l := le_weight_of_mem hb
      rw [weight_cons] at hcons
      omega
    · have hcons := h x
      rw [weight_cons] at hcons
      omega

theorem weight_take_add_drop (w : α → Nat) (l : List α) (p : Nat) :
    weight w (l.take p) + weight w (l.drop p) = weight w l := by
  rw [← weight_append, List.take_append_drop]

end FreeVMS.Cover
