import FreeVMS.Heap.Core
import FreeVMS.Lib.Tiling

/-!
# Freeing a block

What holds of the heap between calls, and that `sys$free` keeps it.  The free blocks and the
blocks in use tile the part of the arena that has been taken so far.
-/

namespace FreeVMS.Heap

open Alloc LinkRing Tiling

/-- The block of a header. -/
def blk (size : Nat → Nat) (a : Nat) : Tile := (a, 16 * size a)

/-- The free blocks and the blocks in use. -/
def tilesOf (size : Nat → Nat) (fs : List Nat) (live : List (Nat × Nat)) : List Tile :=
  fs.map (blk size) ++ live.map fun x => blk size x.1

/-- What holds of the ring of free blocks, apart from the order of its blocks. -/
structure RingInv (A : Arena) (s : Memory) (fs : List Nat) : Prop where
  ring : Path s.ptr A.base fs A.base
  zero : s.size A.base = 0
  freep : s.freep ∈ A.base :: fs
  /-- in ascending order, and no two of them adjacent -/
  ascending : fs.Pairwise fun a b => a + 16 * s.size a < b
  below : s.bss ≤ A.top

/-- **The heap**, with the headers `fs` of the free blocks in the order of the ring, and the blocks in
    use with the bytes that were asked for. -/
structure HInv (A : Arena) (s : Memory) (fs : List Nat) (live : List (Nat × Nat)) : Prop
    extends RingInv A s fs where
  tiles : Tiles A.lo s.bss (tilesOf s.size fs live)
  room : ∀ x ∈ live, x.2 + 16 ≤ 16 * s.size x.1

section

variable {A : Arena} {s : Memory} {fs l r : List Nat} {live : List (Nat × Nat)} {bp p : Nat}

/-! ### The loop -/

/-- Above the block to be freed the loop goes on to `base`. -/
theorem freeLoop_above (hbp : A.lo ≤ bp) :
    ∀ (r : List Nat) (p fuel : Nat), Path s.ptr p r A.base → (∀ x ∈ p :: r, bp < x ∧ x ≤ A.top) →
      (p :: r).Pairwise (· < ·) → freeLoop s bp (fuel + (r.length + 1)) p = freeLoop s bp fuel A.base := by
  have hout := A.outside
  intro r
  induction r with
  | nil =>
    intro p fuel hpath hin _
    have hnext : s.ptr p = A.base := hpath
    have hp := hin p List.mem_cons_self
    rw [List.length_nil, freeLoop, if_neg (by omega), if_neg (by omega), hnext]
  | cons q r ih =>
    intro p fuel hpath hin hpair
    obtain ⟨hnext, hrest⟩ := hpath
    have hp := hin p List.mem_cons_self
    have hpq := (List.pairwise_cons.mp hpair).1 q List.mem_cons_self
    rw [List.length_cons, ← Nat.add_assoc, freeLoop, if_neg (by omega), if_neg (by omega), hnext]
    exact ih q fuel hrest (fun x hx => hin x (List.mem_cons_of_mem _ hx)) (List.pairwise_cons.mp hpair).2

/-- Where the loop stops: `p` is before the block to be freed and the next one after it. -/
theorem freeLoop_stop {fuel : Nat} (hbp : A.lo ≤ bp ∧ bp ≤ A.top) (hp : p = A.base ∨ (A.lo ≤ p ∧ p < bp))
    (hnext : s.ptr p = A.base ∨ (bp < s.ptr p ∧ s.ptr p ≤ A.top)) :
    freeLoop s bp (fuel + 1) p = .ok p := by
  have hout := A.outside
  rw [freeLoop]
  by_cases h : bp > p ∧ bp < s.ptr p
  · rw [if_pos h]
  · rw [if_neg h, if_pos (by omega)]

/-- Below the block to be freed the loop goes on to the last header before it. -/
theorem freeLoop_below (hbp : A.lo ≤ bp ∧ bp ≤ A.top) (hr : ∀ x ∈ r, bp < x ∧ x ≤ A.top) :
    ∀ (l : List Nat) (p fuel : Nat), Path s.ptr p (l ++ r) A.base →
      (p = A.base ∨ (A.lo ≤ p ∧ p < bp ∧ ∀ x ∈ l, p < x)) → (∀ x ∈ l, A.lo ≤ x ∧ x < bp) →
      l.Pairwise (· < ·) → l.length < fuel → freeLoop s bp fuel p = .ok (lastOf p l) := by
  have hout := A.outside
  intro l
  induction l with
  | nil =>
    intro p fuel hpath hp _ _ hfuel
    obtain ⟨fuel, rfl⟩ : ∃ k, fuel = k + 1 := ⟨fuel - 1, by omega⟩
    apply freeLoop_stop hbp (by tauto)
    cases r with
    | nil => exact .inl hpath
    | cons q r =>
      rw [hpath.1]
      exact .inr (hr q List.mem_cons_self)
  | cons q l ih =>
    intro p fuel hpath hp hin hpair hfuel
    obtain ⟨fuel, rfl⟩ : ∃ k, fuel = k + 1 := ⟨fuel - 1, by omega⟩
    obtain ⟨hnext, hrest⟩ := hpath
    have hq := hin q List.mem_cons_self
    have hpq : p = A.base ∨ p < q := hp.imp_right fun h => h.2.2 q List.mem_cons_self
    rw [freeLoop, if_neg (by omega), if_neg (by omega), hnext]
    refine ih q fuel hrest (.inr ⟨hq.1, hq.2, (List.pairwise_cons.mp hpair).1⟩)
      (fun x hx => hin x (List.mem_cons_of_mem _ hx)) (List.pairwise_cons.mp hpair).2 ?_
    simpa using hfuel

/-- The place of a block in the ring. -/
theorem exists_split (hpair : fs.Pairwise (· < ·)) (hne : ∀ x ∈ fs, x ≠ bp) :
    ∃ l r, fs = l ++ r ∧ (∀ x ∈ l, x < bp) ∧ ∀ x ∈ r, bp < x := by
  induction fs with
  | nil => exact ⟨[], [], rfl, by simp, by simp⟩
  | cons f fs ih =>
    obtain ⟨hf, hpair'⟩ := List.pairwise_cons.mp hpair
    rcases Nat.lt_or_gt_of_ne (hne f List.mem_cons_self) with hlt | hgt
    · obtain ⟨l, r, rfl, hl, hr⟩ := ih hpair' fun x hx => hne x (List.mem_cons_of_mem _ hx)
      refine ⟨f :: l, r, rfl, ?_, hr⟩
      simpa [hlt] using hl
    · refine ⟨[], f :: fs, rfl, by simp, ?_⟩
      intro x hx
      rcases List.mem_cons.mp hx with rfl | hx
      · exact hgt
      · exact Nat.lt_trans hgt (hf x hx)

/-- **The loop of `sys$free`** ends at the last header before the block, from wherever it starts. -/
theorem freeLoop_spec {fuel : Nat} (hring : Path s.ptr A.base (l ++ r) A.base)
    (hfreep : s.freep ∈ A.base :: (l ++ r)) (hpair : (l ++ r).Pairwise (· < ·))
    (hin : ∀ x ∈ l ++ r, A.lo ≤ x ∧ x ≤ A.top) (hbp : A.lo ≤ bp ∧ bp ≤ A.top) (hl : ∀ x ∈ l, x < bp)
    (hr : ∀ x ∈ r, bp < x) (hfuel : (l ++ r).length + 1 < fuel) :
    freeLoop s bp fuel s.freep = .ok (lastOf A.base l) := by
  have hr' : ∀ x ∈ r, bp < x ∧ x ≤ A.top := fun x hx => ⟨hr x hx, (hin x (by simp [hx])).2⟩
  have hl' : ∀ x ∈ l, A.lo ≤ x ∧ x < bp := fun x hx => ⟨(hin x (by simp [hx])).1, hl x hx⟩
  obtain ⟨hpl, hpr, -⟩ := List.pairwise_append.mp hpair
  rw [List.length_append] at hfuel
  have hbase : ∀ fuel, l.length < fuel → freeLoop s bp fuel A.base = .ok (lastOf A.base l) :=
    fun fuel => freeLoop_below hbp hr' l A.base fuel hring (.inl rfl) hl' hpl
  simp only [List.mem_cons, List.mem_append] at hfreep
  rcases hfreep with heq | hmem | hmem
  · rw [heq]
    exact hbase fuel (by omega)
  · -- it starts below the block
    obtain ⟨l₁, l₂, rfl⟩ := List.append_of_mem hmem
    rw [List.append_assoc, List.cons_append] at hring
    obtain ⟨-, hpl₂, -⟩ := List.pairwise_append.mp hpl
    obtain ⟨hlt, hpl₂⟩ := List.pairwise_cons.mp hpl₂
    have hfp := hl' s.freep (by simp)
    rw [freeLoop_below hbp hr' l₂ s.freep fuel (path_append.mp hring).2
      (.inr ⟨hfp.1, hfp.2, hlt⟩) (fun x hx => hl' x (by simp [hx])) hpl₂ (by simp at hfuel; omega),
      lastOf_append]
    rfl
  · -- it starts above the block, and comes to `base` first
    obtain ⟨r₁, r₂, rfl⟩ := List.append_of_mem hmem
    rw [← List.append_assoc] at hring
    obtain ⟨-, hpr₂, -⟩ := List.pairwise_append.mp hpr
    obtain ⟨fuel, rfl⟩ : ∃ k, fuel = k + (r₂.length + 1) := ⟨fuel - (r₂.length + 1), by simp at hfuel; omega⟩
    rw [freeLoop_above hbp.1 r₂ s.freep fuel (path_append.mp hring).2
      (fun x hx => hr' x (List.mem_append_right _ hx)) hpr₂]
    exact hbase fuel (by simp at hfuel; omega)

/-! ### The joins -/

theorem mem_tilesOf {size : Nat → Nat} {b : Tile} :
    b ∈ tilesOf size fs live ↔ (∃ a ∈ fs, blk size a = b) ∨ ∃ x ∈ live, blk size x.1 = b := by
  simp [tilesOf]

/-- The size of a header that belongs to none of the blocks does not matter. -/
theorem tilesOf_update {size : Nat → Nat} {a v : Nat} (hfs : a ∉ fs) (hlive : ∀ x ∈ live, x.1 ≠ a) :
    tilesOf (Function.update size a v) fs live = tilesOf size fs live := by
  have hblk : ∀ c, c ≠ a → blk (Function.update size a v) c = blk size c := by
    intro c hc
    rw [blk, blk, Function.update_of_ne hc]
  rw [tilesOf, tilesOf]
  congr 1
  · exact List.map_congr_left fun c hc => hblk c fun heq => hfs (heq ▸ hc)
  · exact List.map_congr_left fun x hx => hblk x.1 (hlive x hx)

/-- A block `bp` is to be linked between the free blocks `l` and `r`. -/
structure Parts (A : Arena) (s : Memory) (l r : List Nat) (live : List (Nat × Nat)) (bp : Nat) : Prop where
  front : Path s.ptr A.base l (s.ptr (lastOf A.base l))
  zero : s.size A.base = 0
  ascending : (l ++ r).Pairwise fun a b => a + 16 * s.size a < b
  left : ∀ x ∈ l, x < bp
  right : ∀ x ∈ r, bp < x
  tiles : Tiles A.lo s.bss (blk s.size bp :: tilesOf s.size (l ++ r) live)
  below : s.bss ≤ A.top
  room : ∀ x ∈ live, x.2 + 16 ≤ 16 * s.size x.1

namespace Parts

theorem block (h : Parts A s l r live bp) :
    A.lo ≤ bp ∧ bp + 16 * s.size bp ≤ s.bss ∧ 0 < 16 * s.size bp := by
  have hin := h.tiles.inside _ List.mem_cons_self
  exact ⟨hin.1, hin.2, h.tiles.pos _ List.mem_cons_self⟩

theorem inside (h : Parts A s l r live bp) {x : Nat} (hx : x ∈ l ++ r) :
    A.lo ≤ x ∧ x + 16 * s.size x ≤ s.bss ∧ 0 < 16 * s.size x := by
  have hmem : blk s.size x ∈ blk s.size bp :: tilesOf s.size (l ++ r) live :=
    List.mem_cons_of_mem _ (mem_tilesOf.mpr (.inl ⟨x, hx, rfl⟩))
  have hin := h.tiles.inside _ hmem
  exact ⟨hin.1, hin.2, h.tiles.pos _ hmem⟩

/-- A block in front of `bp` ends before it. -/
theorem ends_before (h : Parts A s l r live bp) {x : Nat} (hx : x ∈ l) :
    x + 16 * s.size x ≤ bp := by
  have hap := (List.pairwise_cons.mp h.tiles.apart).1 (blk s.size x)
    (mem_tilesOf.mpr (.inl ⟨x, List.mem_append_left _ hx, rfl⟩))
  have hlt := h.left x hx
  have hpos := h.block.2.2
  simp only [Apart, blk] at hap
  omega

/-- `bp` ends before the blocks behind it. -/
theorem begins_after (h : Parts A s l r live bp) {x : Nat} (hx : x ∈ r) :
    bp + 16 * s.size bp ≤ x := by
  have hap := (List.pairwise_cons.mp h.tiles.apart).1 (blk s.size x)
    (mem_tilesOf.mpr (.inl ⟨x, List.mem_append_right _ hx, rfl⟩))
  have hlt := h.right x hx
  have hpos := (h.inside (List.mem_append_right l hx)).2.2
  simp only [Apart, blk] at hap
  omega

theorem not_mem (h : Parts A s l r live bp) : bp ∉ l ++ r := by
  intro hmem
  rcases List.mem_append.mp hmem with hx | hx
  · exact Nat.lt_irrefl _ (h.left bp hx)
  · exact Nat.lt_irrefl _ (h.right bp hx)

theorem not_live (h : Parts A s l r live bp) : ∀ x ∈ live, x.1 ≠ bp := by
  intro x hx heq
  exact h.tiles.ne (mem_tilesOf.mpr (.inr ⟨x, hx, rfl⟩)) heq.symm

theorem base_ne (h : Parts A s l r live bp) {x : Nat} (hx : x ∈ bp :: (l ++ r)) : x ≠ A.base := by
  have hout := A.outside
  have hbelow := h.below
  rcases List.mem_cons.mp hx with rfl | hx
  · have hb := h.block
    omega
  · have hb := h.inside hx
    omega

theorem nodup (h : Parts A s l r live bp) : (A.base :: (l ++ r)).Nodup := by
  refine List.nodup_cons.mpr ⟨fun hmem => h.base_ne (List.mem_cons_of_mem _ hmem) rfl, ?_⟩
  exact h.ascending.imp fun hlt => by omega

theorem last_ne (h : Parts A s l r live bp) : lastOf A.base l ≠ bp := by
  rcases List.mem_cons.mp (lastOf_mem A.base l) with heq | hmem
  · rw [heq]
    exact (h.base_ne List.mem_cons_self).symm
  · exact fun heq => Nat.lt_irrefl _ (heq ▸ h.left _ hmem)

end Parts

/-- What is changed at `bp` does not matter to the blocks before it. -/
theorem Parts.front_update (h : Parts A s l r live bp) (v : Nat) :
    Path (Function.update s.ptr bp v) A.base l (Function.update s.ptr bp v (lastOf A.base l)) := by
  have hne : ∀ x ∈ A.base :: l, Function.update s.ptr bp v x = s.ptr x := by
    intro x hx
    apply Function.update_of_ne
    rcases List.mem_cons.mp hx with rfl | hx
    · exact (h.base_ne List.mem_cons_self).symm
    · rintro rfl
      exact h.not_mem (List.mem_append_left _ hx)
  rw [hne _ (lastOf_mem A.base l)]
  exact h.front.congr hne

/-- The links behind `bp`, when `bp` takes the successor of another header. -/
theorem Parts.back_update {a : Nat} (h : Parts A s l r live bp) {r' : List Nat} (hr' : r' ⊆ l ++ r)
    (hback : Path s.ptr a r' A.base) : Path (Function.update s.ptr bp (s.ptr a)) bp r' A.base := by
  refine hback.shift (Function.update_self _ _ _) fun x hx => ?_
  apply Function.update_of_ne
  rintro rfl
  exact h.not_mem (hr' hx)

theorem hdr_eq {a n : Nat} (h : a + 16 * n ≤ s.bss) (hbelow : s.bss ≤ A.top) : hdr a n = a + 16 * n := by
  have hhigh := A.high
  exact Nat.mod_eq_of_lt (by omega)

/-- `bp` and the block right behind it become one. -/
theorem Parts.join {q : Nat} (h : Parts A s l (q :: r) live bp) (hjoin : bp + 16 * s.size bp = q) (v : Nat) :
    Parts A { s with
      size := Function.update s.size bp (s.size bp + s.size q)
      ptr := Function.update s.ptr bp v } l r live bp := by
  have hnot : bp ∉ l ++ r := by
    intro hmem
    apply h.not_mem
    rcases List.mem_append.mp hmem with hx | hx <;> simp [hx]
  constructor
  case front => exact h.front_update v
  case zero =>
    show Function.update s.size bp _ A.base = 0
    rw [Function.update_of_ne (h.base_ne List.mem_cons_self).symm]
    exact h.zero
  case ascending =>
    have hsub : (l ++ r).Pairwise fun a b => a + 16 * s.size a < b :=
      h.ascending.sublist ((List.sublist_cons_self q r).append_left l)
    refine hsub.imp_of_mem fun {a b} ha _ hab => ?_
    have hne : a ≠ bp := fun heq => hnot (heq ▸ ha)
    show a + 16 * Function.update s.size bp _ a < b
    rwa [Function.update_of_ne hne]
  case left => exact h.left
  case right => exact fun x hx => h.right x (List.mem_cons_of_mem _ hx)
  case tiles =>
    simp only [blk, Function.update_self, tilesOf_update hnot h.not_live]
    have hperm : (blk s.size bp :: tilesOf s.size (l ++ q :: r) live).Perm
        ((bp, 16 * s.size bp) :: (bp + 16 * s.size bp, 16 * s.size q) :: tilesOf s.size (l ++ r) live) := by
      refine List.Perm.cons _ ?_
      rw [hjoin]
      simp only [tilesOf, List.map_append, List.map_cons, List.append_assoc, List.cons_append]
      exact List.perm_middle
    have hjoined := (h.tiles.perm hperm).join
    rwa [← Nat.mul_add] at hjoined
  case below => exact h.below
  case room =>
    intro x hx
    show x.2 + 16 ≤ 16 * Function.update s.size bp _ x.1
    rw [Function.update_of_ne (h.not_live x hx)]
    exact h.room x hx

/-- **Join to the upper neighbour.**  Afterwards `bp` is linked to the blocks behind it, and is not
    adjacent to them. -/
theorem joinUpper_spec (h : Parts A s l r live bp) (hback : Path s.ptr (lastOf A.base l) r A.base) :
    ∃ s' r', joinUpper s bp (lastOf A.base l) = s' ∧ Parts A s' l r' live bp ∧ Path s'.ptr bp r' A.base ∧
      (∀ x ∈ r', bp + 16 * s'.size bp < x) ∧ s.size bp ≤ s'.size bp := by
  have hblock := h.block
  have hbelow := h.below
  rw [joinUpper, hdr_eq hblock.2.1 hbelow]
  cases r with
  | nil =>
    have hbase : s.ptr (lastOf A.base l) = A.base := hback
    have hout := A.outside
    rw [if_neg (by omega)]
    exact ⟨_, [], rfl, ⟨h.front_update _, h.zero, h.ascending, h.left, h.right, h.tiles, hbelow, h.room⟩,
      h.back_update (by simp) hback, by simp, Nat.le_refl _⟩
  | cons q r =>
    have hq : s.ptr (lastOf A.base l) = q := hback.1
    have hqin := h.inside (List.mem_append_right l List.mem_cons_self)
    have hqafter := h.begins_after List.mem_cons_self
    have hqr := (List.pairwise_cons.mp (List.pairwise_append.mp h.ascending).2.1).1
    by_cases hjoin : bp + 16 * s.size bp = q
    · have hadd : wordAdd (s.size bp) (s.size q) = s.size bp + s.size q := by
        have hhigh := A.high
        exact Nat.mod_eq_of_lt (by omega)
      rw [hq, if_pos hjoin, hadd]
      refine ⟨_, r, rfl, h.join hjoin _, h.back_update ?_ hback.2, ?_, ?_⟩
      · exact fun x hx => by simp [hx]
      · intro x hx
        have hlt := hqr x hx
        show bp + 16 * Function.update s.size bp (s.size bp + s.size q) bp < x
        rw [Function.update_self]
        omega
      · show s.size bp ≤ Function.update s.size bp (s.size bp + s.size q) bp
        rw [Function.update_self]
        omega
    · rw [hq, if_neg hjoin, ← hq]
      refine ⟨_, q :: r, rfl, ⟨h.front_update _, h.zero, h.ascending, h.left, h.right, h.tiles, hbelow,
        h.room⟩, h.back_update (List.subset_append_right _ _) hback, fun x hx => ?_, Nat.le_refl _⟩
      show bp + 16 * s.size bp < x
      rcases List.mem_cons.mp hx with rfl | hx
      · omega
      · have hlt := hqr x hx
        omega

/-- The tiles with a block between the others. -/
theorem tilesOf_middle {size : Nat → Nat} {a : Nat} :
    (tilesOf size (l ++ a :: r) live).Perm (blk size a :: tilesOf size (l ++ r) live) := by
  simp only [tilesOf, List.map_append, List.map_cons, List.append_assoc, List.cons_append]
  exact List.perm_middle

/-- `bp` is linked in after the last block before it, which it is not adjacent to. -/
theorem Parts.link (h : Parts A s l r live bp) (hback : Path s.ptr bp r A.base)
    (hgap : ∀ x ∈ r, bp + 16 * s.size bp < x) (hlow : ∀ x ∈ l, x + 16 * s.size x < bp) :
    HInv A { s with
      ptr := Function.update s.ptr (lastOf A.base l) bp
      freep := lastOf A.base l } (l ++ bp :: r) live := by
  have hnodup := h.nodup
  rw [← List.cons_append] at hnodup
  obtain ⟨hnl, -, hdisj⟩ := List.nodup_append.mp hnodup
  constructor
  case toRingInv =>
    constructor
    case ring =>
      refine path_append.mpr ⟨h.front.redirect hnl bp, hback.congr fun x hx => ?_⟩
      apply Function.update_of_ne
      rintro rfl
      rcases List.mem_cons.mp hx with heq | hx
      · exact h.last_ne heq
      · exact hdisj _ (lastOf_mem A.base l) _ hx rfl
    case zero => exact h.zero
    case freep =>
      show lastOf A.base l ∈ A.base :: (l ++ bp :: r)
      rcases List.mem_cons.mp (lastOf_mem A.base l) with heq | hmem
      · simp [heq]
      · simp [hmem]
    case ascending =>
      obtain ⟨h1, h2, h3⟩ := List.pairwise_append.mp h.ascending
      refine List.pairwise_append.mpr ⟨h1, List.pairwise_cons.mpr ⟨hgap, h2⟩, fun a ha b hb => ?_⟩
      rcases List.mem_cons.mp hb with rfl | hb
      · exact hlow a ha
      · exact h3 a ha b hb
    case below => exact h.below
  case tiles => exact h.tiles.perm tilesOf_middle.symm
  case room => exact h.room

/-- A block may grow as long as it stays below the blocks behind it. -/
theorem ascending_grown {size : Nat → Nat} {n : Nat}
    (h : (l ++ p :: r).Pairwise fun a b => a + 16 * size a < b) (hp : p ∉ l ++ r)
    (hgap : ∀ x ∈ r, p + 16 * n < x) :
    (l ++ p :: r).Pairwise fun a b => a + 16 * Function.update size p n a < b := by
  have hsize : ∀ x ∈ l ++ r, Function.update size p n x = size x := by
    intro x hx
    apply Function.update_of_ne
    rintro rfl
    exact hp hx
  obtain ⟨h1, h2, h3⟩ := List.pairwise_append.mp h
  refine List.pairwise_append.mpr ⟨h1.imp_of_mem fun {a b} ha _ hab => ?_,
    List.pairwise_cons.mpr ⟨fun b hb => ?_, (List.pairwise_cons.mp h2).2.imp_of_mem
      fun {a b} ha _ hab => ?_⟩, fun a ha b hb => ?_⟩
  · simpa only [hsize a (List.mem_append_left _ ha)] using hab
  · rw [Function.update_self]
    exact hgap b hb
  · simpa only [hsize a (List.mem_append_right _ ha)] using hab
  · simpa only [hsize a (List.mem_append_left _ ha)] using h3 a ha b hb

/-- The last block before `bp` and `bp` become one. -/
theorem Parts.absorb (h : Parts A s (l ++ [p]) r live bp) (hback : Path s.ptr bp r A.base)
    (hgap : ∀ x ∈ r, bp + 16 * s.size bp < x) (hjoin : p + 16 * s.size p = bp) :
    HInv A { s with
      size := Function.update s.size p (s.size p + s.size bp)
      ptr := Function.update s.ptr p (s.ptr bp)
      freep := p } (l ++ p :: r) live := by
  have hperm : (blk s.size bp :: tilesOf s.size (l ++ [p] ++ r) live).Perm
      ((p, 16 * s.size p) :: (p + 16 * s.size p, 16 * s.size bp) :: tilesOf s.size (l ++ r) live) := by
    rw [hjoin, List.append_assoc]
    exact (List.Perm.cons _ tilesOf_middle).trans (List.Perm.swap _ _ _)
  have htiles := (h.tiles.perm hperm).join
  rw [← Nat.mul_add] at htiles
  have hnodup := h.nodup
  rw [List.append_assoc, List.singleton_append, ← List.cons_append] at hnodup
  obtain ⟨-, hnr, hdisj⟩ := List.nodup_append.mp hnodup
  have hpr : p ∉ r := (List.nodup_cons.mp hnr).1
  have hpl : p ∉ A.base :: l := fun hmem => hdisj p hmem p List.mem_cons_self rfl
  have hplr : p ∉ l ++ r := by
    intro hmem
    rcases List.mem_append.mp hmem with hx | hx
    · exact hpl (List.mem_cons_of_mem _ hx)
    · exact hpr hx
  have hplive : ∀ x ∈ live, x.1 ≠ p := fun x hx heq =>
    htiles.ne (mem_tilesOf.mpr (.inr ⟨x, hx, rfl⟩)) heq.symm
  have hpbase : A.base ≠ p := fun heq => hpl (heq ▸ List.mem_cons_self)
  constructor
  case toRingInv =>
    constructor
    case ring =>
      refine path_append.mpr ⟨(path_append.mp h.front).1.congr fun x hx => ?_, ?_⟩
      · apply Function.update_of_ne
        rintro rfl
        exact hpl hx
      · refine hback.shift (Function.update_self _ _ _) fun x hx => ?_
        apply Function.update_of_ne
        rintro rfl
        exact hpr hx
    case zero =>
      show Function.update s.size p _ A.base = 0
      rw [Function.update_of_ne hpbase]
      exact h.zero
    case freep => simp
    case ascending =>
      have hasc := h.ascending
      rw [List.append_assoc, List.singleton_append] at hasc
      refine ascending_grown hasc hplr fun x hx => ?_
      have hlt := hgap x hx
      omega
    case below => exact h.below
  case tiles =>
    refine Tiles.perm ?_ tilesOf_middle.symm
    simp only [blk, Function.update_self, tilesOf_update hplr hplive]
    exact htiles
  case room =>
    intro x hx
    show x.2 + 16 ≤ 16 * Function.update s.size p _ x.1
    rw [Function.update_of_ne (hplive x hx)]
    exact h.room x hx

/-- **Join to the lower neighbour.**  Afterwards `bp` is part of a free block. -/
theorem joinLower_spec (h : Parts A s l r live bp) (hback : Path s.ptr bp r A.base)
    (hgap : ∀ x ∈ r, bp + 16 * s.size bp < x) :
    ∃ s' fs, { joinLower s bp (lastOf A.base l) with freep := lastOf A.base l } = s' ∧ HInv A s' fs live ∧
      s'.bss = s.bss ∧ ∃ f ∈ fs, s.size bp ≤ s'.size f := by
  have hout := A.outside
  have hblock := h.block
  have hbelow := h.below
  have hhigh := A.high
  rcases List.eq_nil_or_concat l with rfl | ⟨l', p, rfl⟩
  · have hbase : hdr A.base (s.size A.base) = A.base := by
      rw [h.zero]
      exact Nat.mod_eq_of_lt (by omega)
    rw [joinLower]
    simp only [lastOf, hbase]
    rw [if_neg (h.base_ne List.mem_cons_self).symm]
    exact ⟨_, _, rfl, h.link hback hgap (by simp), rfl, bp, by simp, Nat.le_refl _⟩
  · rw [List.concat_eq_append] at *
    have hlast : lastOf A.base (l' ++ [p]) = p := by
      rw [lastOf_append]
      rfl
    have hp := h.inside (List.mem_append_left r (List.mem_append_right l' List.mem_cons_self))
    have hend := h.ends_before (List.mem_append_right l' List.mem_cons_self)
    rw [joinLower, hlast, hdr_eq hp.2.1 hbelow]
    by_cases hjoin : p + 16 * s.size p = bp
    · have hadd : wordAdd (s.size p) (s.size bp) = s.size p + s.size bp := Nat.mod_eq_of_lt (by omega)
      rw [if_pos hjoin, hadd]
      refine ⟨_, _, rfl, h.absorb hback hgap hjoin, rfl, p, by simp, ?_⟩
      show s.size bp ≤ Function.update s.size p (s.size p + s.size bp) p
      rw [Function.update_self]
      omega
    · rw [if_neg hjoin]
      have hlow : ∀ x ∈ l' ++ [p], x + 16 * s.size x < bp := by
        intro x hx
        rcases List.mem_append.mp hx with hx | hx
        · have hasc := (List.pairwise_append.mp (List.pairwise_append.mp h.ascending).1).2.2 x hx p
            List.mem_cons_self
          omega
        · rw [List.mem_singleton.mp hx]
          omega
      have hinv := h.link hback hgap hlow
      rw [hlast] at hinv
      exact ⟨_, _, rfl, hinv, rfl, bp, by simp, Nat.le_refl _⟩

/-! ### `sys$free` -/

/-- Rounds that are enough for every loop over the ring. -/
def Arena.rounds (A : Arena) : Nat := (A.top - A.lo) / 16 + 2

/-- There are not more free blocks than headers in the arena. -/
theorem length_lt_rounds (hbelow : s.bss ≤ A.top) (h : Tiles A.lo s.bss (tilesOf s.size fs live)) :
    fs.length + 1 < A.rounds := by
  have hall : ∀ b ∈ tilesOf s.size fs live, 16 ≤ b.2 := by
    intro b hb
    have hpos := h.pos b hb
    rcases mem_tilesOf.mp hb with ⟨a, -, rfl⟩ | ⟨x, -, rfl⟩
    · simp only [blk] at *
      omega
    · simp only [blk] at *
      omega
  have hlen := h.length_le hall
  have hfs : fs.length ≤ (tilesOf s.size fs live).length := by simp [tilesOf]
  rw [Arena.rounds]
  omega

/-- **Freeing** a block puts it into the ring; the other blocks in use are not touched. -/
theorem sysFree_spec {fuel n : Nat} (hring : RingInv A s fs)
    (htiles : Tiles A.lo s.bss (tilesOf s.size fs ((bp, n) :: live)))
    (hroom : ∀ x ∈ live, x.2 + 16 ≤ 16 * s.size x.1) (hfuel : A.rounds ≤ fuel) :
    ∃ s' fs', sysFree fuel (bp + 16) s = .ok s' ∧ HInv A s' fs' live ∧ s'.bss = s.bss ∧
      ∃ f ∈ fs', s.size bp ≤ s'.size f := by
  have hlen := length_lt_rounds hring.below htiles
  have hhigh := A.high
  have hbelow := hring.below
  have htiles' : Tiles A.lo s.bss (blk s.size bp :: tilesOf s.size fs live) := by
    refine htiles.perm ?_
    simp only [tilesOf, List.map_cons]
    exact List.perm_middle
  have hbp := htiles'.inside _ List.mem_cons_self
  have hpos := htiles'.pos _ List.mem_cons_self
  simp only [blk] at hbp hpos
  have hin : ∀ x ∈ fs, A.lo ≤ x ∧ x + 16 * s.size x ≤ s.bss := fun x hx =>
    htiles'.inside (blk s.size x) (List.mem_cons_of_mem _ (mem_tilesOf.mpr (.inl ⟨x, hx, rfl⟩)))
  have hlt : fs.Pairwise (· < ·) := hring.ascending.imp fun h => by omega
  obtain ⟨l, r, rfl, hl, hr⟩ := exists_split hlt fun x hx heq =>
    htiles'.ne (mem_tilesOf.mpr (.inl ⟨x, hx, rfl⟩)) heq.symm
  have hsub : wordSub (bp + 16) 16 = bp := by
    rw [wordSub, show bp + 16 + (wordSize - 16) = bp + wordSize by omega, Nat.add_mod_right]
    exact Nat.mod_eq_of_lt (by omega)
  have hloop : freeLoop s bp fuel s.freep = .ok (lastOf A.base l) := by
    apply freeLoop_spec hring.ring hring.freep hlt
    · intro x hx
      have hx' := hin x hx
      exact ⟨hx'.1, by omega⟩
    · exact ⟨hbp.1, by omega⟩
    · exact hl
    · exact hr
    · omega
  have hparts : Parts A s l r live bp :=
    ⟨hring.ring.take, hring.zero, hring.ascending, hl, hr, htiles', hbelow, hroom⟩
  obtain ⟨s₁, r₁, hupper, hparts₁, hback₁, hgap₁, hsize₁⟩ := joinUpper_spec hparts hring.ring.drop
  obtain ⟨s₂, fs', hlower, hinv, hbss, f, hf, hsize₂⟩ := joinLower_spec hparts₁ hback₁ hgap₁
  have hbss₁ : s₁.bss = s.bss := by
    rw [← hupper, joinUpper]
    split <;> rfl
  refine ⟨s₂, fs', ?_, hinv, hbss.trans hbss₁, f, hf, Nat.le_trans hsize₁ hsize₂⟩
  simp only [sysFree, hsub, hloop, hupper, hlower]
  rw [if_neg (by omega)]

end

end FreeVMS.Heap
