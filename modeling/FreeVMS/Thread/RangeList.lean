import FreeVMS.Alloc.L4
import Mathlib.Data.List.Pairwise

/-!
# The range free list

`sys_rfl.c`: a set of numbers as a list of ranges in ascending order.  A range that is put in is
merged with its neighbours; a number is taken from the front.  The nodes of the list and the
ranges come from the heap, which has room here.
-/

namespace FreeVMS.Thread

open Alloc

/-- `struct range`; the field `from` is a keyword here. -/
structure Range where
  lo : Nat
  hi : Nat
deriving DecidableEq, Repr

/-- `RFL_SUCCESS`, `E_RFL_INV_RANGE` and `E_RFL_OVERLAP`. -/
inductive RflStatus where
  | success
  | invRange
  | overlap
deriving DecidableEq, Repr

/-- A range that now goes from `lo` to `hi`, before the ranges `rest`: it is merged with the next one
    if that begins right after it. -/
def rflExtend (lo hi : Nat) : List Range → List Range
  | [] => [⟨lo, hi⟩]
  | next :: rest =>
      if wordAdd hi 1 = next.lo then ⟨lo, next.hi⟩ :: rest else ⟨lo, hi⟩ :: next :: rest

/-- The loop of `sys$rfl_insert_range` and the insertion after it; nothing for an overlap. -/
def rflScan (lo hi : Nat) : List Range → Option (List Range)
  | [] => some [⟨lo, hi⟩]
  | range :: rest =>
      if (lo ≥ range.lo ∧ lo ≤ range.hi) ∨ (hi ≥ range.lo ∧ hi ≤ range.hi) then none
      else if range.lo = wordAdd hi 1 then some (⟨lo, range.hi⟩ :: rest)
      else if range.hi = wordSub lo 1 then some (rflExtend range.lo hi rest)
      else if range.lo > hi then some (⟨lo, hi⟩ :: range :: rest)
      else (rflScan lo hi rest).map (range :: ·)

/-- `sys$rfl_insert_range`. -/
def rflInsertRange (list : List Range) (lo hi : Nat) : RflStatus × List Range :=
  if lo > hi then (.invRange, list)
  else
    match rflScan lo hi list with
    | none => (.overlap, list)
    | some list' => (.success, list')

/-- `sys$rfl_free`. -/
def rflFree (list : List Range) (val : Nat) : RflStatus × List Range := rflInsertRange list val val

/-- `sys$rfl_alloc`; the last word is `-1`. -/
def rflAlloc : List Range → Nat × List Range
  | [] => (wordSize - 1, [])
  | range :: rest =>
      if range.lo = range.hi then (range.lo, rest)
      else (range.lo, ⟨wordAdd range.lo 1, range.hi⟩ :: rest)

/-! ### The set of a list -/

/-- `n` is in one of the ranges. -/
def Within (n : Nat) (list : List Range) : Prop := ∃ r ∈ list, r.lo ≤ n ∧ n ≤ r.hi

/-- The ranges are words, not empty, in ascending order, and no two of them are adjacent. -/
structure RangeInv (list : List Range) : Prop where
  proper : ∀ r ∈ list, r.lo ≤ r.hi ∧ r.hi < wordSize
  ascending : list.Pairwise fun a b => a.hi + 1 < b.lo

variable {r a : Range} {list rest : List Range} {lo hi n : Nat}

@[simp] theorem within_nil : ¬ Within n [] := fun ⟨_, hr, _⟩ => absurd hr List.not_mem_nil

@[simp] theorem within_cons : Within n (r :: rest) ↔ (r.lo ≤ n ∧ n ≤ r.hi) ∨ Within n rest := by
  simp [Within]

theorem rangeInv_nil : RangeInv [] := ⟨fun _ h => absurd h List.not_mem_nil, List.Pairwise.nil⟩

theorem rangeInv_cons : RangeInv (r :: rest) ↔
    (r.lo ≤ r.hi ∧ r.hi < wordSize) ∧ (∀ b ∈ rest, r.hi + 1 < b.lo) ∧ RangeInv rest := by
  constructor
  · intro ⟨hp, ha⟩
    rw [List.pairwise_cons] at ha
    exact ⟨hp r List.mem_cons_self, ha.1, fun b hb => hp b (List.mem_cons_of_mem _ hb), ha.2⟩
  · intro ⟨hr, ha, hp, ha'⟩
    refine ⟨fun b hb => ?_, List.pairwise_cons.mpr ⟨ha, ha'⟩⟩
    rcases List.mem_cons.mp hb with rfl | hb
    · exact hr
    · exact hp b hb

/-- Numbers of the rest of a list lie beyond its first range. -/
theorem RangeInv.beyond (h : RangeInv (r :: rest)) (hn : Within n rest) : r.hi + 1 < n := by
  obtain ⟨b, hb, hlo, -⟩ := hn
  exact Nat.lt_of_lt_of_le ((rangeInv_cons.mp h).2.1 b hb) hlo

/-- A list remains one when its first range is made smaller. -/
theorem RangeInv.shrink (h : RangeInv (r :: rest)) (hle : lo ≤ r.hi) :
    RangeInv (⟨lo, r.hi⟩ :: rest) := by
  obtain ⟨⟨-, hw⟩, ha, hi⟩ := rangeInv_cons.mp h
  exact rangeInv_cons.mpr ⟨⟨hle, hw⟩, ha, hi⟩

/-- What `rflScan` returns for a range that has no number in common with the list. -/
structure Added (lo hi : Nat) (list list' : List Range) : Prop where
  inv : RangeInv list'
  within : ∀ n, Within n list' ↔ (lo ≤ n ∧ n ≤ hi) ∨ Within n list

theorem added_single (hle : lo ≤ hi) (hhi : hi < wordSize) : Added lo hi [] [⟨lo, hi⟩] :=
  ⟨rangeInv_cons.mpr ⟨⟨hle, hhi⟩, by simp, rangeInv_nil⟩, by simp⟩

/-- A range in front of the others. -/
theorem added_front (h : RangeInv (r :: rest)) (hle : lo ≤ hi) (hgap : hi + 1 < r.lo) :
    Added lo hi (r :: rest) (⟨lo, hi⟩ :: r :: rest) := by
  obtain ⟨⟨hp, hpw⟩, hafter, -⟩ := rangeInv_cons.mp h
  have hhi : hi < wordSize := by omega
  refine ⟨rangeInv_cons.mpr ⟨⟨hle, hhi⟩, fun b hb => ?_, h⟩, fun n => within_cons⟩
  rcases List.mem_cons.mp hb with rfl | hb
  · exact hgap
  · have hb := hafter b hb
    exact show hi + 1 < b.lo by omega

/-- A range that ends where the first one begins. -/
theorem added_joined (h : RangeInv (r :: rest)) (hle : lo ≤ hi) (hnext : r.lo = hi + 1) :
    Added lo hi (r :: rest) (⟨lo, r.hi⟩ :: rest) := by
  obtain ⟨⟨hp, -⟩, -, -⟩ := rangeInv_cons.mp h
  refine ⟨h.shrink (by omega), fun n => ?_⟩
  simp only [within_cons]
  grind

theorem wordAdd_one {x : Nat} (h : x + 1 < wordSize) : wordAdd x 1 = x + 1 := Nat.mod_eq_of_lt h

theorem rflExtend_spec (hnew : ∀ b ∈ rest, wordAdd hi 1 = b.lo ↔ hi + 1 = b.lo) (hle : lo ≤ hi)
    (hw : hi < wordSize) (hrest : RangeInv rest) (hdisj : ∀ m, Within m rest → hi < m) :
    Added lo hi rest (rflExtend lo hi rest) := by
  cases rest with
  | nil => exact added_single hle hw
  | cons next rest =>
    obtain ⟨⟨hp, -⟩, -, -⟩ := rangeInv_cons.mp hrest
    have hlo : hi < next.lo := hdisj next.lo (within_cons.mpr (.inl ⟨Nat.le_refl _, hp⟩))
    rw [rflExtend]
    simp only [hnew next List.mem_cons_self]
    by_cases hmerge : hi + 1 = next.lo
    · rw [if_pos hmerge]
      exact added_joined hrest hle hmerge.symm
    · rw [if_neg hmerge]
      exact added_front hrest hle (Nat.lt_of_le_of_ne hlo hmerge)

/-- The scan puts the range in and leaves a list in order, where the successor of its last number tells
    the ranges apart that begin with it. -/
theorem rflScan_added (hlo : 0 < lo) (hle : lo ≤ hi) (hhi : hi < wordSize) :
    ∀ list, RangeInv list → (∀ b ∈ list, wordAdd hi 1 = b.lo ↔ hi + 1 = b.lo) →
      (∀ n, lo ≤ n → n ≤ hi → ¬ Within n list) →
      ∃ list', rflScan lo hi list = some list' ∧ Added lo hi list list' := by
  have hpre : wordSub lo 1 = lo - 1 := wordSub_one hlo (by omega)
  intro list
  induction list with
  | nil =>
    intro _ _ _
    exact ⟨_, rfl, added_single hle hhi⟩
  | cons range rest ih =>
    intro hinv hnew hdisj
    have hsucc : range.lo = wordAdd hi 1 ↔ range.lo = hi + 1 := by
      have hhead := hnew range List.mem_cons_self
      constructor
      · exact fun h => (hhead.mp h.symm).symm
      · exact fun h => (hhead.mpr h.symm).symm
    have hnew' : ∀ b ∈ rest, wordAdd hi 1 = b.lo ↔ hi + 1 = b.lo :=
      fun b hb => hnew b (List.mem_cons_of_mem _ hb)
    obtain ⟨⟨hp, hpw⟩, -, hrest⟩ := rangeInv_cons.mp hinv
    simp only [within_cons, not_or] at hdisj
    have hout : ¬ ((lo ≥ range.lo ∧ lo ≤ range.hi) ∨ (hi ≥ range.lo ∧ hi ≤ range.hi)) := by
      rintro (h | h)
      · exact (hdisj lo (Nat.le_refl _) hle).1 h
      · exact (hdisj hi hle (Nat.le_refl _)).1 h
    -- the range does not lie inside the new one either
    have hside : hi < range.lo ∨ range.hi < lo := by
      by_contra hcon
      exact (hdisj (max lo range.lo) (by omega) (by omega)).1 ⟨by omega, by omega⟩
    rw [rflScan, if_neg hout, hpre]
    simp only [hsucc]
    by_cases hbefore : range.lo = hi + 1
    · rw [if_pos hbefore]
      exact ⟨_, rfl, added_joined hinv hle hbefore⟩
    rw [if_neg hbefore]
    by_cases hend : range.hi = lo - 1
    · rw [if_pos hend]
      obtain ⟨hext, hmem⟩ := rflExtend_spec hnew' (show range.lo ≤ hi by omega) hhi hrest
        fun m hm => by
          have hm' : range.hi + 1 < m := hinv.beyond hm
          by_contra hcon
          exact (hdisj m (by omega) (by omega)).2 hm
      refine ⟨_, rfl, hext, fun n => ?_⟩
      rw [hmem, within_cons]
      grind
    rw [if_neg hend]
    by_cases hfirst : range.lo > hi
    · rw [if_pos hfirst]
      exact ⟨_, rfl, added_front hinv hle (by omega)⟩
    · rw [if_neg hfirst]
      obtain ⟨list', hscan, hadd⟩ := ih hrest hnew' fun n h h' => (hdisj n h h').2
      refine ⟨range :: list', by rw [hscan]; rfl, ?_, fun n => ?_⟩
      · refine rangeInv_cons.mpr ⟨⟨hp, hpw⟩, fun b hb => ?_, hadd.inv⟩
        have hb' : Within b.lo list' := ⟨b, hb, Nat.le_refl _, (hadd.inv.proper b hb).1⟩
        rcases (hadd.within b.lo).mp hb' with h | h
        · omega
        · exact hinv.beyond h
      · simp only [within_cons, hadd.within]
        grind

/-- **Putting back.**  A range that is not in the set is added to it. -/
theorem rflInsertRange_added (hinv : RangeInv list) (hlo : 0 < lo) (hle : lo ≤ hi)
    (hhi : hi + 1 < wordSize) (hdisj : ∀ n, lo ≤ n → n ≤ hi → ¬ Within n list) :
    (rflInsertRange list lo hi).1 = .success ∧ Added lo hi list (rflInsertRange list lo hi).2 := by
  have hnew : wordAdd hi 1 = hi + 1 := wordAdd_one hhi
  obtain ⟨list', hscan, hadd⟩ := rflScan_added hlo hle (by omega) list hinv
    (fun b _ => by rw [hnew]) hdisj
  rw [rflInsertRange, if_neg (by omega), hscan]
  exact ⟨rfl, hadd⟩

/-- What `sys$rfl_alloc` does to a set that is not empty: its least number is taken. -/
structure Taken (n : Nat) (list list' : List Range) : Prop where
  inv : RangeInv list'
  mem : Within n list
  least : ∀ m, Within m list → n ≤ m
  within : ∀ m, Within m list' ↔ m ≠ n ∧ Within m list

/-- **Taking.**  The least number is taken out of the set. -/
theorem rflAlloc_taken (hinv : RangeInv list) (hne : list ≠ []) :
    Taken (rflAlloc list).1 list (rflAlloc list).2 := by
  cases list with
  | nil => exact absurd rfl hne
  | cons range rest =>
    obtain ⟨⟨hp, hpw⟩, hafter, hrest⟩ := rangeInv_cons.mp hinv
    have hleast : ∀ m, Within m (range :: rest) → range.lo ≤ m := by
      intro m hm
      rcases within_cons.mp hm with h | h
      · exact h.1
      · have := hinv.beyond h
        omega
    have hmem : Within range.lo (range :: rest) := within_cons.mpr (.inl ⟨Nat.le_refl _, hp⟩)
    by_cases hone : range.lo = range.hi
    · rw [rflAlloc, if_pos hone]
      refine ⟨hrest, hmem, hleast, fun m => ?_⟩
      constructor
      · intro hm
        have := hinv.beyond hm
        exact ⟨show m ≠ range.lo by omega, within_cons.mpr (.inr hm)⟩
      · rintro ⟨hm, hw⟩
        rcases within_cons.mp hw with h | h
        · exact absurd (show m = range.lo by omega) hm
        · exact h
    · rw [rflAlloc, if_neg hone, wordAdd_one (by omega)]
      refine ⟨hinv.shrink (by omega), hmem, hleast, fun m => ?_⟩
      simp only [within_cons]
      constructor
      · rintro (h | h)
        · exact ⟨by omega, .inl (by omega)⟩
        · have := hinv.beyond h
          exact ⟨by omega, .inr h⟩
      · rintro ⟨hm, h | h⟩
        · exact .inl (by omega)
        · exact .inr h

end FreeVMS.Thread
