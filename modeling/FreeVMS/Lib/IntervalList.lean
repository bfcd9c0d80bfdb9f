import Mathlib.Order.Basic
import Mathlib.Order.Defs.LinearOrder
import Mathlib.Order.Lattice
import Mathlib.Data.List.Basic
import Mathlib.Data.List.Pairwise
import Mathlib.Tactic.Common

/-!
# Ordered lists of disjoint intervals

Facts about lists of closed intervals `[lo x, hi x]` over a linear order: what it
means for an interval to be apart from all of them, what inserting one in its place
does, and when a test against the neighbours only is enough.  The type of the
intervals and the order are arbitrary.
-/

namespace FreeVMS.IntervalList

variable {α ι : Type*} [LinearOrder ι] (lo hi : α → ι)

/-- No point of `x` lies in `y`. -/
def Apart (x y : α) : Prop := hi x < lo y ∨ hi y < lo x

/-- Each interval ends before the next one begins. -/
def Chain (xs : List α) : Prop := xs.Pairwise fun x y => hi x < lo y

/-- Sorted by lower end. -/
def Sorted (xs : List α) : Prop := xs.Pairwise fun x y => lo x < lo y

/-- Every interval has its ends in order. -/
def Proper (xs : List α) : Prop := ∀ x ∈ xs, lo x ≤ hi x

/-- `o` is apart from every interval of the list. -/
def Clear (o : α) (xs : List α) : Prop := ∀ x ∈ xs, Apart lo hi o x

/-- `o` covers the first interval of the list, sticks out of it on both sides, and
    ends before the second one. -/
def Swallows (o : α) (xs : List α) : Prop :=
  ∃ b bs, xs = b :: bs ∧ lo o < lo b ∧ hi b < hi o ∧ ∀ x ∈ bs, hi o < lo x

/-- `ys` is `xs` with `o` put in at its place by lower end. -/
def Inserted (o : α) (xs ys : List α) : Prop :=
  ∃ p s, xs = p ++ s ∧ ys = p ++ o :: s ∧ (∀ a ∈ p, lo a < lo o) ∧ ∀ b ∈ s, lo o < lo b

instance decidableSwallows (o : α) : ∀ xs, Decidable (Swallows lo hi o xs)
  | [] => isFalse fun ⟨_, _, h, _⟩ => List.cons_ne_nil _ _ h.symm
  | b :: bs =>
      decidable_of_iff (lo o < lo b ∧ hi b < hi o ∧ ∀ x ∈ bs, hi o < lo x)
        ⟨fun h => ⟨b, bs, rfl, h⟩, fun ⟨_, _, heq, h⟩ => by cases heq; exact h⟩

section

variable {lo hi}

theorem Apart.symm {x y : α} (h : Apart lo hi x y) : Apart lo hi y x := Or.symm h

theorem Chain.sorted {xs : List α} (h : Chain lo hi xs) (hp : Proper lo hi xs) :
    Sorted lo xs := by
  induction xs with
  | nil => exact List.Pairwise.nil
  | cons x xs ih =>
    obtain ⟨hx, hxs⟩ := List.pairwise_cons.mp h
    refine List.pairwise_cons.mpr ⟨fun y hy => ?_, ih hxs fun y hy => hp y (List.mem_cons_of_mem _ hy)⟩
    exact lt_of_le_of_lt (hp x List.mem_cons_self) (hx y hy)

/-- In a chain, two intervals that share a point are the same interval. -/
theorem Chain.eq_of_mem {xs : List α} (h : Chain lo hi xs) {x y : α} {k : ι}
    (hx : x ∈ xs) (hy : y ∈ xs) (hxk : lo x ≤ k ∧ k ≤ hi x) (hyk : lo y ≤ k ∧ k ≤ hi y) :
    x = y := by
  induction xs with
  | nil => cases hx
  | cons a as ih =>
    obtain ⟨ha, has⟩ := List.pairwise_cons.mp h
    rcases List.mem_cons.mp hx with rfl | hx'
    · rcases List.mem_cons.mp hy with rfl | hy'
      · rfl
      · exact absurd (lt_of_le_of_lt hxk.2 (ha y hy')) (not_lt.mpr hyk.1)
    · rcases List.mem_cons.mp hy with rfl | hy'
      · exact absurd (lt_of_le_of_lt hyk.2 (ha x hx')) (not_lt.mpr hxk.1)
      · exact ih has hx' hy'

theorem chain_append {xs ys : List α} :
    Chain lo hi (xs ++ ys) ↔ Chain lo hi xs ∧ Chain lo hi ys ∧ ∀ x ∈ xs, ∀ y ∈ ys, hi x < lo y :=
  List.pairwise_append

theorem sorted_append {xs ys : List α} :
    Sorted lo (xs ++ ys) ↔ Sorted lo xs ∧ Sorted lo ys ∧ ∀ x ∈ xs, ∀ y ∈ ys, lo x < lo y :=
  List.pairwise_append

theorem Sorted.nodup {xs : List α} (h : Sorted lo xs) : xs.Nodup :=
  List.Pairwise.imp (fun hlt heq => absurd (heq ▸ hlt) (lt_irrefl _)) h

/-! ### Insertion -/

theorem Inserted.perm {o : α} {xs ys : List α} (h : Inserted lo o xs ys) :
    ys.Perm (o :: xs) := by
  obtain ⟨p, s, rfl, rfl, -, -⟩ := h
  exact List.perm_middle

theorem Inserted.mem_iff {o x : α} {xs ys : List α} (h : Inserted lo o xs ys) :
    x ∈ ys ↔ x = o ∨ x ∈ xs := by
  rw [h.perm.mem_iff, List.mem_cons]

theorem Inserted.sorted {o : α} {xs ys : List α} (h : Inserted lo o xs ys)
    (hs : Sorted lo xs) : Sorted lo ys := by
  obtain ⟨p, s, rfl, rfl, hp, hs'⟩ := h
  obtain ⟨h1, h2, h3⟩ := sorted_append.mp hs
  refine sorted_append.mpr ⟨h1, List.pairwise_cons.mpr ⟨hs', h2⟩, ?_⟩
  intro x hx y hy
  rcases List.mem_cons.mp hy with rfl | hy
  · exact hp x hx
  · exact h3 x hx y hy

theorem Inserted.proper {o : α} {xs ys : List α} (h : Inserted lo o xs ys)
    (ho : lo o ≤ hi o) (hp : Proper lo hi xs) : Proper lo hi ys := by
  intro x hx
  rcases h.mem_iff.mp hx with rfl | hx
  · exact ho
  · exact hp x hx

/-- Putting an interval into a gap keeps the chain. -/
theorem Inserted.chain {o : α} {xs ys : List α} (h : Inserted lo o xs ys)
    (ho : lo o ≤ hi o) (hp : Proper lo hi xs) (hc : Chain lo hi xs)
    (hcl : Clear lo hi o xs) : Chain lo hi ys := by
  obtain ⟨p, s, rfl, rfl, hlt, hgt⟩ := h
  obtain ⟨h1, h2, h3⟩ := chain_append.mp hc
  -- being apart, an interval that begins before `o` also ends before it
  have hleft : ∀ a ∈ p, hi a < lo o := by
    intro a ha
    rcases hcl a (List.mem_append_left _ ha) with h | h
    · exact absurd (lt_of_le_of_lt ho h) (not_lt.mpr (le_of_lt (hlt a ha)))
    · exact h
  have hright : ∀ b ∈ s, hi o < lo b := by
    intro b hb
    rcases hcl b (List.mem_append_right _ hb) with h | h
    · exact h
    · exact absurd (lt_of_le_of_lt (hp b (List.mem_append_right _ hb)) h)
        (not_lt.mpr (le_of_lt (hgt b hb)))
  refine chain_append.mpr ⟨h1, List.pairwise_cons.mpr ⟨hright, h2⟩, ?_⟩
  intro x hx y hy
  rcases List.mem_cons.mp hy with rfl | hy
  · exact hleft x hx
  · exact h3 x hx y hy

/-- Insertion into a window of a list is insertion into the list, when what comes
    before the window is smaller and what comes after is larger. -/
theorem Inserted.window {o : α} {m m' : List α} (h : Inserted lo o m m') {a b : List α}
    (ha : ∀ x ∈ a, lo x < lo o) (hb : ∀ x ∈ b, lo o < lo x) :
    Inserted lo o (a ++ m ++ b) (a ++ m' ++ b) := by
  obtain ⟨p, s, rfl, rfl, hp, hs⟩ := h
  refine ⟨a ++ p, s ++ b, by simp, by simp, ?_, ?_⟩
  · intro x hx
    rcases List.mem_append.mp hx with hx | hx
    · exact ha x hx
    · exact hp x hx
  · intro x hx
    rcases List.mem_append.mp hx with hx | hx
    · exact hs x hx
    · exact hb x hx

/-- If the first interval is smaller than `o`, it stays first. -/
theorem Inserted.head? {o x : α} {xs ys : List α} (h : Inserted lo o xs ys)
    (hx : xs.head? = some x) (hlt : lo x < lo o) : ys.head? = some x := by
  obtain ⟨p, s, rfl, rfl, hp, hs⟩ := h
  cases p with
  | nil =>
    rw [List.nil_append] at hx
    cases s with
    | nil => simp at hx
    | cons b s =>
      simp only [List.head?_cons, Option.some.injEq] at hx
      subst hx
      exact absurd (hs b List.mem_cons_self) (not_lt.mpr (le_of_lt hlt))
  | cons a p =>
    simpa using hx

/-! ### Being apart, seen through a window -/

/-- The neighbours decide: when everything left of the window `m` ends before `o` and
    everything right of it begins after `o`, only `m` matters. -/
theorem clear_window {o : α} {a m b : List α} (ha : ∀ x ∈ a, hi x < lo o)
    (hb : ∀ x ∈ b, hi o < lo x) : Clear lo hi o (a ++ m ++ b) ↔ Clear lo hi o m := by
  constructor
  · intro h x hx
    exact h x (List.mem_append_left _ (List.mem_append_right _ hx))
  · intro h x hx
    rcases List.mem_append.mp hx with hx | hx
    · rcases List.mem_append.mp hx with hx | hx
      · exact Or.inr (ha x hx)
      · exact h x hx
    · exact Or.inl (hb x hx)

theorem swallows_window {o : α} {a m b : List α} (hm : m ≠ [])
    (ha : ∀ x ∈ a, lo x < lo o) (hb : ∀ x ∈ b, hi o < lo x)
    (hfirst : a ≠ [] → ∀ x, m.head? = some x → lo x < lo o) :
    Swallows lo hi o (a ++ m ++ b) ↔ Swallows lo hi o m := by
  cases m with
  | nil => exact absurd rfl hm
  | cons y m =>
    cases a with
    | nil =>
      constructor
      · rintro ⟨c, cs, heq, h1, h2, h3⟩
        simp only [List.nil_append, List.cons_append, List.cons.injEq] at heq
        obtain ⟨rfl, rfl⟩ := heq
        exact ⟨y, m, rfl, h1, h2, fun x hx => h3 x (List.mem_append_left _ hx)⟩
      · rintro ⟨c, cs, heq, h1, h2, h3⟩
        simp only [List.cons.injEq] at heq
        obtain ⟨rfl, rfl⟩ := heq
        refine ⟨y, m ++ b, by simp, h1, h2, fun x hx => ?_⟩
        rcases List.mem_append.mp hx with hx | hx
        · exact h3 x hx
        · exact hb x hx
    | cons z a =>
      have hy : lo y < lo o := hfirst (by simp) y rfl
      constructor
      · rintro ⟨c, cs, heq, h1, -, -⟩
        simp only [List.cons_append, List.cons.injEq] at heq
        obtain ⟨rfl, -⟩ := heq
        exact absurd (ha z List.mem_cons_self) (not_lt.mpr (le_of_lt h1))
      · rintro ⟨c, cs, heq, h1, -, -⟩
        simp only [List.cons.injEq] at heq
        obtain ⟨rfl, -⟩ := heq
        exact absurd hy (not_lt.mpr (le_of_lt h1))

end

end FreeVMS.IntervalList
