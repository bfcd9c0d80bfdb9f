import FreeVMS.BTree.Insert
import FreeVMS.Lib.IntervalList
import Mathlib.Data.List.Range

/-!
# The shape of the object-table B+tree

`objs` reads a tree as the list of its objects from left to right, and `Good` is the
invariant the insertion proof carries: pages of uniform depth whose key `i` is the
base of the first object under child `i + 1`.  The order of the keys and the bounds
they put on the subtrees are not part of `Good`; they follow from it once the list of
objects is sorted.

The flag `keyed` switches the condition on the keys off, which leaves the bare shape.
The shape survives every insertion, the keys do not.
-/

namespace FreeVMS.BTree

open IntervalList

/-- The objects of a tree, from left to right. -/
def objs : BTPtr → List Memsection
  | .null => []
  | .obj o => [o]
  | .page count _ _ _ child => (List.range (count + 1)).flatMap fun i => objs (child i)

/-- The number of keys of a page. -/
def BTPtr.keys : BTPtr → Nat
  | .page count _ _ _ _ => count
  | _ => 0

/-- The objects under children `a`, …, `a + n - 1`. -/
def seg (child : Nat → BTPtr) (a n : Nat) : List Memsection :=
  (List.range' a n).flatMap fun i => objs (child i)

/-! ### Segments of children -/

theorem objs_page (count : Nat) (isleaf : Bool) (pad : Nat) (key : Nat → Nat)
    (child : Nat → BTPtr) :
    objs (.page count isleaf pad key child) = seg child 0 (count + 1) := by
  rw [objs, seg, List.range_eq_range']

theorem seg_zero (child : Nat → BTPtr) (a : Nat) : seg child a 0 = [] := rfl

theorem seg_one (child : Nat → BTPtr) (a : Nat) : seg child a 1 = objs (child a) := by
  simp [seg]

theorem seg_add (child : Nat → BTPtr) (a n m : Nat) :
    seg child a (n + m) = seg child a n ++ seg child (a + n) m := by
  rw [seg, seg, seg, ← List.flatMap_append, ← List.range'_append]
  simp

theorem seg_congr {child child' : Nat → BTPtr} {a b n : Nat}
    (h : ∀ i < n, child (a + i) = child' (b + i)) : seg child a n = seg child' b n := by
  induction n generalizing a b with
  | zero => rfl
  | succ n ih =>
    have h0 : child a = child' b := h 0 (by omega)
    have htail : seg child (a + 1) n = seg child' (b + 1) n := by
      apply ih
      intro i hi
      have := h (i + 1) (by omega)
      rwa [Nat.add_assoc, Nat.add_comm 1 i, Nat.add_assoc, Nat.add_comm 1 i]
    rw [Nat.add_comm n 1, seg_add, seg_add, seg_one, seg_one, h0, htail]

theorem mem_seg {child : Nat → BTPtr} {a n : Nat} {x : Memsection} :
    x ∈ seg child a n ↔ ∃ i, a ≤ i ∧ i < a + n ∧ x ∈ objs (child i) := by
  simp [seg, List.mem_flatMap, List.mem_range'_1, and_assoc]

/-- A page seen through the window of one child. -/
theorem seg_window (child : Nat → BTPtr) {h c : Nat} (hh : h ≤ c) :
    seg child 0 (c + 1) = seg child 0 h ++ objs (child h) ++ seg child (h + 1) (c - h) := by
  have hsplit : c + 1 = h + (1 + (c - h)) := by omega
  rw [hsplit, seg_add, seg_add, seg_one, Nat.zero_add, List.append_assoc]

/-- The objects of a page after one child has been put in. -/
theorem seg_insChild (child : Nat → BTPtr) (p : BTPtr) {hi : Int} {c : Nat}
    (hhi : hi ≤ c) :
    seg (insChild child hi p) 0 (c + 2) =
      seg child 0 (hi + 1).toNat ++ objs p ++ seg child (hi + 1).toNat (c + 1 - (hi + 1).toNat) := by
  have hsplit : c + 2 = (hi + 1).toNat + (1 + (c + 1 - (hi + 1).toNat)) := by omega
  rw [hsplit, seg_add, seg_add, seg_one, Nat.zero_add, ← List.append_assoc]
  congr 1
  · congr 1
    · apply seg_congr
      intro i hi'
      exact if_pos (by omega)
    · have : insChild child hi p (hi + 1).toNat = p := by
        rw [insChild, if_neg (by omega), if_pos rfl]
      rw [this]
  · apply seg_congr
    intro i hi'
    rw [insChild, if_neg (by omega), if_neg (by omega)]
    congr 1
    omega

/-! ### The invariant -/

/-- Key `k` is the base of the first object under `t`. -/
def KeyOk (keyed : Bool) (k : Nat) (t : BTPtr) : Prop :=
  keyed = true → ∃ x, (objs t).head? = some x ∧ x.base = k

/-- `t` is a tree of `n` levels of pages: non-root pages have at least `lo` and all
    pages at most `hi` keys, and the pages of the last level are exactly the leaves. -/
def Good (keyed : Bool) (lo hi : Nat) : Nat → BTPtr → Prop
  | 0, t => ∃ o, t = .obj o
  | n + 1, .page count isleaf _ key child =>
      count ≤ hi ∧ isleaf = decide (n = 0) ∧
        (∀ i ≤ count, Good keyed lo hi n (child i) ∧ (n ≠ 0 → lo ≤ (child i).keys)) ∧
        ∀ i < count, KeyOk keyed (key i) (child (i + 1))
  | _ + 1, _ => False

section

variable {keyed : Bool} {lo hi : Nat}

theorem Good.page_eq {n : Nat} {t : BTPtr} (h : Good keyed lo hi (n + 1) t) :
    ∃ count isleaf pad key child, t = .page count isleaf pad key child := by
  cases t with
  | null => exact absurd h id
  | obj o => exact absurd h id
  | page count isleaf pad key child => exact ⟨count, isleaf, pad, key, child, rfl⟩

theorem Good.objs_ne_nil : ∀ {n : Nat} {t : BTPtr}, Good keyed lo hi n t → objs t ≠ [] := by
  intro n
  induction n with
  | zero =>
    rintro t ⟨o, rfl⟩
    simp [objs]
  | succ n ih =>
    intro t h
    obtain ⟨count, isleaf, pad, key, child, rfl⟩ := h.page_eq
    have h0 := ih (h.2.2.1 0 (Nat.zero_le _)).1
    rw [objs_page, seg_window child (Nat.zero_le count), seg_zero, List.nil_append]
    exact fun hnil => h0 (List.append_eq_nil_iff.mp hnil).1

theorem Good.getObjKey : ∀ {n : Nat} {t : BTPtr}, Good keyed lo hi n t →
    ∃ k, btGetObjKey t = some k := by
  intro n t h
  cases n with
  | zero =>
    obtain ⟨o, rfl⟩ := h
    exact ⟨o.base, rfl⟩
  | succ n =>
    obtain ⟨count, isleaf, pad, key, child, rfl⟩ := h.page_eq
    exact ⟨_, rfl⟩

/-- Dropping the condition on the keys. -/
theorem Good.shape : ∀ {n : Nat} {t : BTPtr}, Good keyed lo hi n t → Good false lo hi n t := by
  intro n
  induction n with
  | zero => exact fun h => h
  | succ n ih =>
    intro t h
    obtain ⟨count, isleaf, pad, key, child, rfl⟩ := h.page_eq
    obtain ⟨hc, hl, hch, -⟩ := h
    exact ⟨hc, hl, fun i hi => ⟨ih (hch i hi).1, (hch i hi).2⟩, fun i _ hf => absurd hf (by decide)⟩

/-- The first object of a page is the first object of its first child. -/
theorem head?_page {count : Nat} {isleaf : Bool} {pad : Nat} {key : Nat → Nat}
    {child : Nat → BTPtr} (h0 : objs (child 0) ≠ []) :
    (objs (.page count isleaf pad key child)).head? = (objs (child 0)).head? := by
  rw [objs_page, seg_window child (Nat.zero_le count), seg_zero, List.nil_append,
    List.head?_append_of_ne_nil _ h0]

/-! ### What the sorted list says about the keys -/

/-- Key `i` separates the objects under children `0, …, i` from the others. -/
theorem Good.separates {n count : Nat} {isleaf : Bool} {pad : Nat} {key : Nat → Nat}
    {child : Nat → BTPtr} (h : Good true lo hi (n + 1) (.page count isleaf pad key child))
    (hs : Sorted Memsection.base (seg child 0 (count + 1))) {i : Nat} (hi : i < count) :
    (∀ x ∈ seg child 0 (i + 1), x.base < key i) ∧
      ∀ x ∈ seg child (i + 1) (count - i), key i ≤ x.base := by
  obtain ⟨y, hy, hyk⟩ := h.2.2.2 i hi rfl
  have hsplit : count + 1 = (i + 1) + (1 + (count - (i + 1))) := by omega
  have hrest : count - i = 1 + (count - (i + 1)) := by omega
  rw [hsplit, seg_add, sorted_append] at hs
  obtain ⟨-, hright, hcross⟩ := hs
  rw [Nat.zero_add] at hright hcross
  -- the right part begins with the object that key `i` was read from
  obtain ⟨tl, htl⟩ : ∃ tl, seg child (i + 1) (1 + (count - (i + 1))) = y :: tl := by
    rw [seg_add, seg_one]
    cases hch : objs (child (i + 1)) with
    | nil => rw [hch] at hy; simp at hy
    | cons z zs =>
      rw [hch] at hy
      simp only [List.head?_cons, Option.some.injEq] at hy
      exact ⟨zs ++ seg child (i + 1 + 1) (count - (i + 1)), by rw [hy]; rfl⟩
  rw [hrest, htl]
  rw [htl] at hright hcross
  constructor
  · intro x hx
    rw [← hyk]
    exact hcross x hx y List.mem_cons_self
  · intro x hx
    rcases List.mem_cons.mp hx with rfl | hx
    · exact le_of_eq hyk.symm
    · rw [← hyk]
      exact le_of_lt ((List.pairwise_cons.mp hright).1 x hx)

theorem Good.keys_lt {n count : Nat} {isleaf : Bool} {pad : Nat} {key : Nat → Nat}
    {child : Nat → BTPtr} (h : Good true lo hi (n + 1) (.page count isleaf pad key child))
    (hs : Sorted Memsection.base (seg child 0 (count + 1))) {i j : Nat} (hij : i < j)
    (hj : j < count) : key i < key j := by
  obtain ⟨y, hy, hyk⟩ := h.2.2.2 i (by omega) rfl
  rw [← hyk]
  apply (h.separates hs hj).1
  exact mem_seg.mpr ⟨i + 1, by omega, by omega, List.mem_of_mem_head? hy⟩

end

/-! ### The binary searches -/

theorem insertIndex_spec (key : Nat → Nat) (k count : Nat) :
    ∀ (fuel lo hi : Nat), lo ≤ hi → hi ≤ count → hi - lo ≤ fuel →
      (0 < lo → key (lo - 1) < k) → (hi < count → k < key hi) →
      match insertIndex key k fuel lo hi with
      | none => ∃ i < count, key i = k
      | some r => r ≤ count ∧ (0 < r → key (r - 1) < k) ∧ (r < count → k < key r) := by
  intro fuel
  induction fuel with
  | zero =>
    intro lo hi hle hc hf hlo hhi
    have heq : lo = hi := by omega
    subst heq
    exact ⟨hc, hlo, hhi⟩
  | succ fuel ih =>
    intro lo hi hle hc hf hlo hhi
    rw [insertIndex]
    by_cases hlt : lo < hi
    · simp only [if_pos hlt]
      by_cases heq : key ((lo + hi) / 2) = k
      · simp only [if_pos heq]
        exact ⟨_, by omega, heq⟩
      · simp only [if_neg heq]
        by_cases hgt : key ((lo + hi) / 2) > k
        · simp only [if_pos hgt]
          exact ih lo ((lo + hi) / 2) (by omega) (by omega) (by omega) hlo fun _ => hgt
        · simp only [if_neg hgt]
          refine ih ((lo + hi) / 2 + 1) hi (by omega) hc (by omega) (fun _ => ?_) hhi
          rw [Nat.add_sub_cancel]
          omega
    · simp only [if_neg hlt]
      have heq : lo = hi := by omega
      subst heq
      exact ⟨hc, hlo, hhi⟩

theorem searchIndex_spec (key : Nat → Nat) (k count : Nat) :
    ∀ (fuel lo hi : Nat), lo ≤ hi → hi ≤ count → hi - lo ≤ fuel →
      (0 < lo → key (lo - 1) ≤ k) → (hi < count → k < key hi) →
      searchIndex key k fuel lo hi ≤ count ∧
      (0 < searchIndex key k fuel lo hi → key (searchIndex key k fuel lo hi - 1) ≤ k) ∧
      (searchIndex key k fuel lo hi < count → k < key (searchIndex key k fuel lo hi) ∨
        0 < searchIndex key k fuel lo hi ∧ key (searchIndex key k fuel lo hi - 1) = k) := by
  intro fuel
  induction fuel with
  | zero =>
    intro lo hi hle hc hf hlo hhi
    have heq : lo = hi := by omega
    subst heq
    exact ⟨hc, hlo, fun h => Or.inl (hhi h)⟩
  | succ fuel ih =>
    intro lo hi hle hc hf hlo hhi
    rw [searchIndex]
    by_cases hlt : lo < hi
    · simp only [if_pos hlt]
      by_cases heq : key ((lo + hi) / 2) = k
      · simp only [if_pos heq, Nat.add_sub_cancel]
        exact ⟨by omega, fun _ => le_of_eq heq, fun _ => Or.inr ⟨by omega, heq⟩⟩
      · simp only [if_neg heq]
        by_cases hgt : key ((lo + hi) / 2) > k
        · simp only [if_pos hgt]
          exact ih lo ((lo + hi) / 2) (by omega) (by omega) (by omega) hlo fun _ => hgt
        · simp only [if_neg hgt]
          refine ih ((lo + hi) / 2 + 1) hi (by omega) hc (by omega) (fun _ => ?_) hhi
          rw [Nat.add_sub_cancel]
          omega
    · simp only [if_neg hlt]
      have heq : lo = hi := by omega
      subst heq
      exact ⟨hc, hlo, fun h => Or.inl (hhi h)⟩

/-- The index `BTInsert` descends to lies between two keys that enclose the new one. -/
theorem insertIndex_some {key : Nat → Nat} {k count r : Nat}
    (h : insertIndex key k count 0 count = some r) :
    r ≤ count ∧ (0 < r → key (r - 1) < k) ∧ (r < count → k < key r) := by
  have hs := insertIndex_spec key k count count 0 count (by omega) (by omega) (by omega)
    (by omega) (by omega)
  rwa [h] at hs

theorem insertIndex_none {key : Nat → Nat} {k count : Nat}
    (h : insertIndex key k count 0 count = none) : ∃ i < count, key i = k := by
  have hs := insertIndex_spec key k count count 0 count (by omega) (by omega) (by omega)
    (by omega) (by omega)
  rwa [h] at hs

end FreeVMS.BTree
