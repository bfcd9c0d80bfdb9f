import Mathlib.Data.List.Pairwise
import Mathlib.Algebra.Order.BigOperators.Group.List
import Mathlib.Algebra.Order.Ring.Nat

/-!
# Tilings

A range of addresses cut into blocks: the blocks are not empty, lie inside the range, do not
overlap, and have the length of the range together.  The order of the blocks does not matter.
A block may be cut in two, two neighbours may be joined, and the range may grow by a block at
its end.
-/

namespace FreeVMS.Tiling

/-- A block: where it begins and how long it is. -/
abbrev Tile := Nat × Nat

/-- No address is in both blocks. -/
def Apart (b c : Tile) : Prop := b.1 + b.2 ≤ c.1 ∨ c.1 + c.2 ≤ b.1

theorem Apart.symm {b c : Tile} (h : Apart b c) : Apart c b := Or.symm h

/-- The blocks `bs` tile the range from `lo` up to `hi`. -/
structure Tiles (lo hi : Nat) (bs : List Tile) : Prop where
  pos : ∀ b ∈ bs, 0 < b.2
  inside : ∀ b ∈ bs, lo ≤ b.1 ∧ b.1 + b.2 ≤ hi
  apart : bs.Pairwise Apart
  total : lo + (bs.map Prod.snd).sum = hi

variable {lo hi a l m : Nat} {b : Tile} {bs cs : List Tile}

theorem tiles_empty (lo : Nat) : Tiles lo lo [] :=
  ⟨by simp, by simp, List.Pairwise.nil, by simp⟩

theorem Tiles.perm (h : Tiles lo hi bs) (hp : bs.Perm cs) : Tiles lo hi cs where
  pos b hb := h.pos b (hp.mem_iff.mpr hb)
  inside b hb := h.inside b (hp.mem_iff.mpr hb)
  apart := (hp.pairwise_iff fun h => h.symm).mp h.apart
  total := by rw [← (hp.map Prod.snd).sum_eq, h.total]

/-- Blocks begin at different places. -/
theorem Tiles.ne (h : Tiles lo hi (b :: bs)) {c : Tile} (hc : c ∈ bs) : b.1 ≠ c.1 := by
  have hap := (List.pairwise_cons.mp h.apart).1 c hc
  have hb := h.pos b List.mem_cons_self
  have hc := h.pos c (List.mem_cons_of_mem _ hc)
  simp only [Apart] at hap
  omega

/-- A block is cut in two. -/
theorem Tiles.split (h : Tiles lo hi ((a, l + m) :: bs)) (hl : 0 < l) (hm : 0 < m) :
    Tiles lo hi ((a, l) :: (a + l, m) :: bs) := by
  have hin := h.inside _ List.mem_cons_self
  have hap := List.pairwise_cons.mp h.apart
  have hrest := fun b (hb : b ∈ bs) => List.mem_cons_of_mem (a, l + m) hb
  simp only at hin
  constructor
  case pos =>
    intro b hb
    simp only [List.mem_cons] at hb
    rcases hb with rfl | rfl | hb
    · exact hl
    · exact hm
    · exact h.pos b (hrest b hb)
  case inside =>
    intro b hb
    simp only [List.mem_cons] at hb
    rcases hb with rfl | rfl | hb
    · exact ⟨hin.1, by simp only; omega⟩
    · exact ⟨by simp only; omega, by simp only; omega⟩
    · exact h.inside b (hrest b hb)
  case apart =>
    refine List.pairwise_cons.mpr ⟨fun b hb => ?_, List.pairwise_cons.mpr ⟨fun b hb => ?_, hap.2⟩⟩
    · rcases List.mem_cons.mp hb with rfl | hb
      · exact .inl (Nat.le_refl _)
      · have hab := hap.1 b hb
        simp only [Apart] at *
        omega
    · have hab := hap.1 b hb
      simp only [Apart] at *
      omega
  case total =>
    have ht := h.total
    simp only [List.map_cons, List.sum_cons] at *
    omega

/-- Two neighbours are joined. -/
theorem Tiles.join (h : Tiles lo hi ((a, l) :: (a + l, m) :: bs)) : Tiles lo hi ((a, l + m) :: bs) := by
  have hl := h.pos _ List.mem_cons_self
  have hin := h.inside _ List.mem_cons_self
  have hin' := h.inside _ (List.mem_cons_of_mem _ List.mem_cons_self)
  have hap := List.pairwise_cons.mp h.apart
  have hap' := List.pairwise_cons.mp hap.2
  have hrest := fun b (hb : b ∈ bs) =>
    List.mem_cons_of_mem (a, l) (List.mem_cons_of_mem (a + l, m) hb)
  simp only at hl hin hin'
  constructor
  case pos =>
    intro b hb
    rcases List.mem_cons.mp hb with rfl | hb
    · exact show 0 < l + m by omega
    · exact h.pos b (hrest b hb)
  case inside =>
    intro b hb
    rcases List.mem_cons.mp hb with rfl | hb
    · exact ⟨hin.1, show a + (l + m) ≤ hi by omega⟩
    · exact h.inside b (hrest b hb)
  case apart =>
    refine List.pairwise_cons.mpr ⟨fun b hb => ?_, hap'.2⟩
    have h1 := hap.1 b (List.mem_cons_of_mem _ hb)
    have h2 := hap'.1 b hb
    have hpos := h.pos b (hrest b hb)
    simp only [Apart] at *
    omega
  case total =>
    have ht := h.total
    simp only [List.map_cons, List.sum_cons] at *
    omega

theorem Tiles.le (h : Tiles lo hi bs) : lo ≤ hi := by
  have ht := h.total
  omega

/-- The range grows to take in a block beside it. -/
theorem Tiles.beside {lo' hi' : Nat} (h : Tiles lo hi bs) (hl : 0 < l) (hlo : lo' ≤ lo)
    (hhi : hi ≤ hi') (hin : lo' ≤ a ∧ a + l ≤ hi') (hout : hi ≤ a ∨ a + l ≤ lo)
    (htotal : lo' + (l + (hi - lo)) = hi') : Tiles lo' hi' ((a, l) :: bs) := by
  constructor
  case pos =>
    intro b hb
    rcases List.mem_cons.mp hb with rfl | hb
    · exact hl
    · exact h.pos b hb
  case inside =>
    intro b hb
    rcases List.mem_cons.mp hb with rfl | hb
    · exact hin
    · have hb := h.inside b hb
      exact ⟨by omega, by omega⟩
  case apart =>
    refine List.pairwise_cons.mpr ⟨fun b hb => ?_, h.apart⟩
    have hb := h.inside b hb
    simp only [Apart]
    omega
  case total =>
    have ht := h.total
    simp only [List.map_cons, List.sum_cons]
    omega

/-- The range grows by a block. -/
theorem Tiles.extend (h : Tiles lo hi bs) (hl : 0 < l) : Tiles lo (hi + l) ((hi, l) :: bs) := by
  have hle := h.le
  exact h.beside hl (Nat.le_refl _) (Nat.le_add_right _ _) ⟨hle, Nat.le_refl _⟩
    (.inl (Nat.le_refl _)) (by omega)

/-- The range grows by a block in front. -/
theorem Tiles.prepend (h : Tiles (lo + l) hi bs) (hl : 0 < l) : Tiles lo hi ((lo, l) :: bs) := by
  have hle := h.le
  exact h.beside hl (Nat.le_add_right _ _) (Nat.le_refl _) ⟨Nat.le_refl _, hle⟩
    (.inr (Nat.le_refl _)) (by omega)

/-- Blocks of at least `k` addresses are not more than there is room for. -/
theorem Tiles.length_le {k : Nat} (h : Tiles lo hi bs) (hk : ∀ b ∈ bs, k ≤ b.2) :
    bs.length * k ≤ hi - lo := by
  have hsum : bs.length * k ≤ (bs.map Prod.snd).sum := by
    have hcard := List.card_nsmul_le_sum (bs.map Prod.snd) k fun x hx => by
      obtain ⟨b, hb, rfl⟩ := List.mem_map.mp hx
      exact hk b hb
    simpa using hcard
  have ht := h.total
  omega

end FreeVMS.Tiling
