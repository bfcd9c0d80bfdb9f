import FreeVMS.Alloc.Code

/-!
# Regions of memory

`struct memdesc`, the rounding of addresses to pages, and `sys$remove_chunk`, which takes a range
out of an array of regions.  Regions are inclusive; one whose end is below its base has no
addresses.
-/

namespace FreeVMS.Boot

open Alloc

/-- `struct memdesc`. -/
structure Region where
  base : Nat
  end_ : Nat
deriving DecidableEq, Repr

/-- `sys$page_round_down`, for a page size that is a power of two. -/
def pageRoundDown (address pageSize : Nat) : Nat := address / pageSize * pageSize

/-- `sys$page_round_up`. -/
def pageRoundUp (address pageSize : Nat) : Nat := wordAdd address (pageSize - 1) / pageSize * pageSize

/-- The loop of `sys$remove_chunk` from some region on; `pos` is the number of all regions.  The upper
    part of a region that is split is the next one to be looked at. -/
def removeLoop (max low high : Nat) : Nat → Nat → List Region → Except Fault (List Region)
  | 0, _, _ => .error .diverge
  | _ + 1, _, [] => .ok []
  | fuel + 1, pos, r :: rest =>
      if low ≤ r.base ∧ high ≥ r.end_ then removeLoop max low high fuel (pos - 1) rest
      else if low ≥ r.base ∧ low < r.end_ ∧ high ≥ r.end_ then
        (removeLoop max low high fuel pos rest).map (⟨r.base, wordSub low 1⟩ :: ·)
      else if low ≤ r.base ∧ high ≤ r.end_ ∧ high > r.base then
        (removeLoop max low high fuel pos rest).map (⟨wordAdd high 1, r.end_⟩ :: ·)
      else if low > r.base ∧ low < r.end_ ∧ high < r.end_ ∧ high > r.base then
        if pos ≥ max - 1 then .error .panic
        else
          (removeLoop max low high fuel (pos + 1) (⟨wordAdd high 1, r.end_⟩ :: rest)).map
            (⟨r.base, wordSub low 1⟩ :: ·)
      else (removeLoop max low high fuel pos rest).map (r :: ·)

/-- `sys$remove_chunk`. -/
def removeChunk (max low high : Nat) (rs : List Region) : Except Fault (List Region) :=
  removeLoop max low high (2 * rs.length + 1) rs.length rs

/-! ### What is left of each region -/

/-- What is left of a region. -/
def cut (low high : Nat) (r : Region) : List Region :=
  if low ≤ r.base ∧ high ≥ r.end_ then []
  else if low ≥ r.base ∧ low < r.end_ ∧ high ≥ r.end_ then [⟨r.base, low - 1⟩]
  else if low ≤ r.base ∧ high ≤ r.end_ ∧ high > r.base then [⟨high + 1, r.end_⟩]
  else if low > r.base ∧ low < r.end_ ∧ high < r.end_ ∧ high > r.base then
    [⟨r.base, low - 1⟩, ⟨high + 1, r.end_⟩]
  else [r]

/-- The bounds of a region are words. -/
def Region.Word (r : Region) : Prop := r.base < wordSize ∧ r.end_ < wordSize

/-- `x` is an address of one of the regions. -/
def Covered (x : Nat) (rs : List Region) : Prop := ∃ r ∈ rs, r.base ≤ x ∧ x ≤ r.end_

section

variable {max low high x : Nat} {r : Region} {rs rs' : List Region}

@[simp] theorem covered_nil : ¬ Covered x [] := fun ⟨_, hr, _⟩ => absurd hr List.not_mem_nil

@[simp] theorem covered_cons : Covered x (r :: rs) ↔ (r.base ≤ x ∧ x ≤ r.end_) ∨ Covered x rs := by
  simp [Covered]

@[simp] theorem covered_append : Covered x (rs ++ rs') ↔ Covered x rs ∨ Covered x rs' := by
  simp only [Covered, List.mem_append, or_and_right, exists_or]

theorem wordAdd_one_of_lt {e x : Nat} (h : x < e) (he : e < wordSize) : wordAdd x 1 = x + 1 :=
  Nat.mod_eq_of_lt (by omega)

/-- `sys$remove_chunk` treats each region by itself, unless there is no room for another one. -/
theorem removeLoop_eq (hlow : low < wordSize) : ∀ (fuel pos : Nat) (rs : List Region),
    (∀ r ∈ rs, r.Word) → 2 * rs.length < fuel →
      removeLoop max low high fuel pos rs = .error .panic ∨
        removeLoop max low high fuel pos rs = .ok (rs.flatMap (cut low high)) := by
  intro fuel
  induction fuel using Nat.strongRecOn with
  | _ fuel ih =>
    intro pos rs hw hfuel
    obtain ⟨fuel, rfl⟩ : ∃ k, fuel = k + 1 := ⟨fuel - 1, by omega⟩
    cases rs with
    | nil => exact .inr rfl
    | cons r rest =>
      have hr := hw r List.mem_cons_self
      have hrest : ∀ pos', removeLoop max low high fuel pos' rest = .error .panic ∨
          removeLoop max low high fuel pos' rest = .ok (rest.flatMap (cut low high)) := fun pos' =>
        ih fuel (by omega) pos' rest (fun r hr => hw r (List.mem_cons_of_mem _ hr)) (by
          simp only [List.length_cons] at hfuel
          omega)
      rw [removeLoop, List.flatMap_cons, cut]
      by_cases hall : low ≤ r.base ∧ high ≥ r.end_
      · rw [if_pos hall, if_pos hall]
        exact hrest _
      rw [if_neg hall, if_neg hall]
      by_cases htop : low ≥ r.base ∧ low < r.end_ ∧ high ≥ r.end_
      · rw [if_pos htop, if_pos htop, wordSub_one (by omega) hlow.le]
        rcases hrest pos with h | h <;> simp [h, Except.map]
      rw [if_neg htop, if_neg htop]
      by_cases hbottom : low ≤ r.base ∧ high ≤ r.end_ ∧ high > r.base
      · rw [if_pos hbottom, if_pos hbottom, wordAdd_one_of_lt (e := r.end_) (by omega) hr.2]
        rcases hrest pos with h | h <;> simp [h, Except.map]
      rw [if_neg hbottom, if_neg hbottom]
      by_cases hsplit : low > r.base ∧ low < r.end_ ∧ high < r.end_ ∧ high > r.base
      · rw [if_pos hsplit, if_pos hsplit, wordSub_one (by omega) hlow.le,
          wordAdd_one_of_lt hsplit.2.2.1 hr.2]
        by_cases hfull : pos ≥ max - 1
        · rw [if_pos hfull]
          exact .inl rfl
        · rw [if_neg hfull]
          -- the upper part is looked at in the next round, and left alone
          obtain ⟨fuel, rfl⟩ : ∃ k, fuel = k + 1 := ⟨fuel - 1, by
            simp only [List.length_cons] at hfuel
            omega⟩
          have hupper := ih fuel (by omega) (pos + 1) rest (fun r hr => hw r (List.mem_cons_of_mem _ hr)) (by
            simp only [List.length_cons] at hfuel
            omega)
          rw [removeLoop, if_neg (by simp only; omega), if_neg (by simp only; omega),
            if_neg (by simp only; omega), if_neg (by simp only; omega)]
          rcases hupper with h | h <;> simp [h, Except.map]
      · rw [if_neg hsplit, if_neg hsplit]
        rcases hrest pos with h | h <;> simp [h, Except.map]

theorem removeChunk_eq (hlow : low < wordSize) (hw : ∀ r ∈ rs, r.Word)
    (h : removeChunk max low high rs = .ok rs') : rs' = rs.flatMap (cut low high) := by
  rw [removeChunk] at h
  rcases removeLoop_eq hlow (2 * rs.length + 1) rs.length rs hw (by omega) with hp | hok
  · exact nomatch h.symm.trans hp
  · exact Except.ok.inj (h.symm.trans hok)

/-- A region that the range touches with one address only, at its end or at its base, is left alone
    although the address is in the range. -/
def Touches (low high : Nat) (r : Region) : Prop :=
  low ≤ high ∧ r.base < r.end_ ∧ (low = r.end_ ∨ high = r.base)

/-- **Subtraction.**  Otherwise the addresses of the range are gone, and no others. -/
theorem covered_cut (h : ¬ Touches low high r) :
    Covered x (cut low high r) ↔ (r.base ≤ x ∧ x ≤ r.end_) ∧ ¬ (low ≤ x ∧ x ≤ high) := by
  rw [Touches] at h
  rw [cut]
  split
  · simp only [covered_nil, false_iff]
    omega
  split
  · simp only [covered_cons, covered_nil, or_false]
    omega
  split
  · simp only [covered_cons, covered_nil, or_false]
    omega
  split
  · simp only [covered_cons, covered_nil, or_false]
    omega
  · simp only [covered_cons, covered_nil, or_false]
    omega

theorem covered_flatMap_cut (h : ∀ r ∈ rs, ¬ Touches low high r) :
    Covered x (rs.flatMap (cut low high)) ↔ Covered x rs ∧ ¬ (low ≤ x ∧ x ≤ high) := by
  induction rs with
  | nil => simp
  | cons r rs ih =>
    rw [List.flatMap_cons, covered_append, covered_cut (h r List.mem_cons_self),
      ih fun r hr => h r (List.mem_cons_of_mem _ hr), covered_cons]
    tauto

/-- The bounds of a region are at the borders of grains of `g` addresses. -/
structure Region.Grained (g : Nat) (r : Region) : Prop where
  base : r.base % g = 0
  end_ : (r.end_ + 1) % g = 0
  word : r.Word

/-- The part of a region that is left has its bounds at the borders of grains again. -/
theorem grained_cut {g : Nat} (h : r.Grained g) (hlow : low % g = 0) (hhigh : (high + 1) % g = 0)
    (hw : low < wordSize) : ∀ r' ∈ cut low high r, r'.Grained g := by
  have hr := h.word
  simp only [Region.Word] at hr
  have lower : r.base < low → Region.Grained g ⟨r.base, low - 1⟩ := fun hlt =>
    ⟨h.base, by simpa [Nat.sub_add_cancel (show 1 ≤ low by omega)] using hlow, hr.1, by
      simp only
      omega⟩
  have upper : high < r.end_ → Region.Grained g ⟨high + 1, r.end_⟩ := fun hlt =>
    ⟨hhigh, h.end_, by simp only; omega, hr.2⟩
  intro r' hr'
  rw [cut] at hr'
  split at hr'
  · exact absurd hr' List.not_mem_nil
  split at hr'
  · rw [List.mem_singleton.mp hr']
    exact lower (by omega)
  split at hr'
  · rw [List.mem_singleton.mp hr']
    exact upper (by omega)
  split at hr'
  · simp only [List.mem_cons, List.not_mem_nil, or_false] at hr'
    rcases hr' with rfl | rfl
    · exact lower (by omega)
    · exact upper (by omega)
  · rwa [List.mem_singleton.mp hr']

/-- A range of whole grains of two addresses or more touches no region of whole grains with one
    address only. -/
theorem Region.Grained.not_touches {g : Nat} (h : r.Grained g) (hg : 1 < g) (hlow : low % g = 0)
    (hhigh : (high + 1) % g = 0) : ¬ Touches low high r := by
  have hend := h.end_
  have hbase := h.base
  rintro ⟨-, -, heq | heq⟩
  · rw [← heq, Nat.add_mod, hlow, Nat.zero_add, Nat.mod_mod, Nat.mod_eq_of_lt hg] at hend
    exact nomatch hend
  · rw [heq, Nat.add_mod, hbase, Nat.zero_add, Nat.mod_mod, Nat.mod_eq_of_lt hg] at hhigh
    exact nomatch hhigh

/-- **`sys$remove_chunk`** on regions of whole grains. -/
theorem removeChunk_spec {g : Nat} (hg : 1 < g) (hrs : ∀ r ∈ rs, r.Grained g) (hlow : low % g = 0)
    (hhigh : (high + 1) % g = 0) (hw : low < wordSize) (h : removeChunk max low high rs = .ok rs') :
    rs' = rs.flatMap (cut low high) ∧ (∀ r ∈ rs', r.Grained g) ∧
      ∀ x, Covered x rs' ↔ Covered x rs ∧ ¬ (low ≤ x ∧ x ≤ high) := by
  have heq := removeChunk_eq hw (fun r hr => (hrs r hr).word) h
  refine ⟨heq, fun r' hr' => ?_, fun x => ?_⟩
  · rw [heq] at hr'
    obtain ⟨r, hr, hcut⟩ := List.mem_flatMap.mp hr'
    exact grained_cut (hrs r hr) hlow hhigh hw r' hcut
  · rw [heq]
    exact covered_flatMap_cut fun r hr => (hrs r hr).not_touches hg hlow hhigh

end

end FreeVMS.Boot
