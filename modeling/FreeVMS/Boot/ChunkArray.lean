import FreeVMS.Boot.MemMap

/-!
# Subtraction in place

`sys$remove_chunk` as it works on its array: what is removed is closed by moving the regions behind it
down, and a region that is split gets a slot for its upper part by moving them up.  `removeChunk` is
the same on lists.
-/

namespace FreeVMS.Boot

open Alloc

/-- `struct memdesc *` -/
abbrev MemDescs := Nat → Region

/-- The regions from index `j` on, `n` of them. -/
def cells (d : MemDescs) (j n : Nat) : List Region := (List.range n).map fun i => d (j + i)

section Code

variable (max low high : Nat)

/-- `for(k = j; k < pos; k++) mem_desc[k] = mem_desc[k + 1];` with `n` rounds to go.  The array has `max`
    entries. -/
def closeGap : Nat → Nat → MemDescs → Except Fault MemDescs
  | 0, _, d => .ok d
  | n + 1, k, d =>
      if k + 1 < max then closeGap n (k + 1) (Function.update d k (d (k + 1)))
      else .error .outOfBounds

/-- `for(k = pos; k > j; k--) mem_desc[k] = mem_desc[k - 1];` -/
def openGap : Nat → Nat → MemDescs → Except Fault MemDescs
  | 0, _, d => .ok d
  | n + 1, k, d =>
      if k < max then openGap n (k - 1) (Function.update d k (d (k - 1))) else .error .outOfBounds

/-- Region `j` is split: the regions behind it make room for its upper part. -/
def splitChunk (j pos : Nat) (d : MemDescs) : Except Fault MemDescs := do
  let d ← openGap max (pos - j) pos d
  let d := Function.update d (j + 1) { d (j + 1) with end_ := (d j).end_ }
  let d := Function.update d (j + 1) { d (j + 1) with base := wordAdd high 1 }
  pure (Function.update d j { d j with end_ := wordSub low 1 })

/-- The loop of `sys$remove_chunk` from index `j` on.  Where a region is removed, `j--` and the `j++` of
    the loop cancel out. -/
def removeChunkFrom : Nat → Nat → Nat → MemDescs → Except Fault (Nat × MemDescs)
  | 0, _, _, _ => .error .diverge
  | fuel + 1, j, pos, d =>
      if j < pos then
        if low ≤ (d j).base ∧ high ≥ (d j).end_ then do
          let d ← closeGap max (pos - j) j d
          removeChunkFrom fuel j (pos - 1) d
        else if low ≥ (d j).base ∧ low < (d j).end_ ∧ high ≥ (d j).end_ then
          removeChunkFrom fuel (j + 1) pos (Function.update d j { d j with end_ := wordSub low 1 })
        else if low ≤ (d j).base ∧ high ≤ (d j).end_ ∧ high > (d j).base then
          removeChunkFrom fuel (j + 1) pos (Function.update d j { d j with base := wordAdd high 1 })
        else if low > (d j).base ∧ low < (d j).end_ ∧ high < (d j).end_ ∧ high > (d j).base then
          if pos ≥ max - 1 then .error .panic
          else do
            let d ← splitChunk max low high j pos d
            removeChunkFrom fuel (j + 1) (pos + 1) d
        else removeChunkFrom fuel (j + 1) pos d
      else .ok (pos, d)

/-- `sys$remove_chunk`: the number of regions that is returned, and the array.  Each region is looked at
    once, and so is the upper part of one that is split. -/
def sysRemoveChunk (pos : Nat) (d : MemDescs) : Except Fault (Nat × MemDescs) :=
  removeChunkFrom max low high (2 * pos + 1) 0 pos d

end Code

/-! ### The array as a list -/

section

variable {max low high pos : Nat} {d d' : MemDescs}

@[simp] theorem length_cells (d : MemDescs) (j n : Nat) : (cells d j n).length = n := by
  simp [cells]

theorem cells_succ (d : MemDescs) (j n : Nat) : cells d j (n + 1) = d j :: cells d (j + 1) n := by
  simp only [cells, List.range_succ_eq_map, List.map_cons, List.map_map, Nat.add_zero]
  congr 1
  apply List.map_congr_left
  intro i _
  simp only [Function.comp_apply]
  congr 1
  omega

theorem cells_snoc (d : MemDescs) (j n : Nat) : cells d j (n + 1) = cells d j n ++ [d (j + n)] := by
  simp [cells, List.range_succ]

theorem cells_congr {j n : Nat} {k : Nat} (h : ∀ i, i < n → d' (k + i) = d (j + i)) :
    cells d' k n = cells d j n := by
  apply List.map_congr_left
  intro i hi
  exact h i (List.mem_range.mp hi)

theorem closeGap_ok : ∀ (n k : Nat) (d : MemDescs), k + n < max →
    ∃ d', closeGap max n k d = .ok d' ∧ ∀ i, d' i = if k ≤ i ∧ i < k + n then d (i + 1) else d i := by
  intro n
  induction n with
  | zero =>
    intro k d _
    exact ⟨d, rfl, fun i => by rw [if_neg (by omega)]⟩
  | succ n ih =>
    intro k d hk
    obtain ⟨d', hclose, hd'⟩ := ih (k + 1) (Function.update d k (d (k + 1))) (by omega)
    refine ⟨d', by rw [closeGap, if_pos (by omega), hclose], fun i => ?_⟩
    rw [hd', Function.update_apply, Function.update_apply]
    by_cases hi : i = k
    · subst hi
      rw [if_neg (by omega), if_pos rfl, if_pos (by omega)]
    · by_cases hin : k + 1 ≤ i ∧ i < k + 1 + n
      · rw [if_pos hin, if_neg (by omega), if_pos (by omega)]
      · rw [if_neg hin, if_neg hi, if_neg (by omega)]

theorem openGap_ok : ∀ (n k : Nat) (d : MemDescs), k < max → n ≤ k →
    ∃ d', openGap max n k d = .ok d' ∧ ∀ i, d' i = if k - n < i ∧ i ≤ k then d (i - 1) else d i := by
  intro n
  induction n with
  | zero =>
    intro k d _ _
    exact ⟨d, rfl, fun i => by rw [if_neg (by omega)]⟩
  | succ n ih =>
    intro k d hk hn
    obtain ⟨d', hopen, hd'⟩ := ih (k - 1) (Function.update d k (d (k - 1))) (by omega) (by omega)
    refine ⟨d', by rw [openGap, if_pos hk, hopen], fun i => ?_⟩
    rw [hd', Function.update_apply, Function.update_apply]
    by_cases hi : i = k
    · subst hi
      rw [if_neg (by omega), if_pos rfl, if_pos (by omega)]
    · by_cases hin : k - 1 - n < i ∧ i ≤ k - 1
      · rw [if_pos hin, if_neg (by omega), if_pos (by omega)]
      · rw [if_neg hin, if_neg hi, if_neg (by omega)]

theorem splitChunk_ok {j n : Nat} (h : j + 1 + n < max) : ∃ d',
    splitChunk max low high j (j + 1 + n) d = .ok d' ∧ (∀ i, i < j → d' i = d i) ∧
      d' j = ⟨(d j).base, wordSub low 1⟩ ∧
      cells d' (j + 1) (n + 1) = ⟨wordAdd high 1, (d j).end_⟩ :: cells d (j + 1) n := by
  obtain ⟨d₁, hopen, hd₁⟩ := @openGap_ok max (n + 1) (j + 1 + n) d h (by omega)
  have hat : d₁ j = d j := by rw [hd₁, if_neg (by omega)]
  rw [splitChunk, show j + 1 + n - j = n + 1 by omega, hopen]
  refine ⟨_, rfl, fun i hi => ?_, ?_, ?_⟩
  · rw [Function.update_of_ne (by omega), Function.update_of_ne (by omega),
      Function.update_of_ne (by omega), hd₁, if_neg (by omega)]
  · rw [Function.update_self, Function.update_of_ne (by omega), Function.update_of_ne (by omega), hat]
  · rw [cells_succ]
    congr 1
    · rw [Function.update_of_ne (by omega), Function.update_self, Function.update_self, hat]
    · apply cells_congr
      intro i hi
      rw [Function.update_of_ne (by omega), Function.update_of_ne (by omega),
        Function.update_of_ne (by omega), hd₁, if_pos (by omega), show j + 1 + 1 + i - 1 = j + 1 + i by omega]

/-- What the loop leaves behind the first `j` regions is the list `rest`. -/
def Leaves (j : Nat) (d : MemDescs) (code : Except Fault (Nat × MemDescs)) :
    Except Fault (List Region) → Prop
  | .error e => code = .error e
  | .ok rest => ∃ d', code = .ok (j + rest.length, d') ∧
      cells d' 0 (j + rest.length) = cells d 0 j ++ rest

/-- The loop goes on behind a region that it keeps as `r`. -/
theorem Leaves.keep {j : Nat} {d₁ : MemDescs} {r : Region} {code : Except Fault (Nat × MemDescs)}
    {res : Except Fault (List Region)} (h : Leaves (j + 1) d₁ code res) (hfront : ∀ i, i < j → d₁ i = d i)
    (hj : d₁ j = r) : Leaves j d code (res.map (r :: ·)) := by
  cases res with
  | error e => exact h
  | ok rest =>
    obtain ⟨d', hcode, hd'⟩ := h
    have hlen : j + 1 + rest.length = j + (r :: rest).length := by
      simp only [List.length_cons]
      omega
    rw [hlen] at hcode hd'
    refine ⟨d', hcode, ?_⟩
    rw [hd', cells_snoc, cells_congr (j := 0) (d := d) (by simpa using hfront), Nat.zero_add, hj,
      List.append_assoc, List.singleton_append]

/-- The loop goes on in front of what it has closed up. -/
theorem Leaves.skip {j : Nat} {d₁ : MemDescs} {code : Except Fault (Nat × MemDescs)}
    {res : Except Fault (List Region)} (h : Leaves j d₁ code res) (hfront : ∀ i, i < j → d₁ i = d i) :
    Leaves j d code res := by
  cases res with
  | error e => exact h
  | ok rest =>
    obtain ⟨d', hcode, hd'⟩ := h
    exact ⟨d', hcode, by rw [hd', cells_congr (j := 0) (d := d) (by simpa using hfront)]⟩

/-- **In place.**  The loop does to the array what `removeLoop` does to the list of its regions, and leaves
    what lies in front alone. -/
theorem removeChunkFrom_leaves : ∀ (fuel j pos : Nat) (d : MemDescs), j ≤ pos → pos < max →
    Leaves j d (removeChunkFrom max low high fuel j pos d)
      (removeLoop max low high fuel pos (cells d j (pos - j))) := by
  intro fuel
  induction fuel with
  | zero =>
    intro j pos d _ _
    rfl
  | succ fuel ih =>
    intro j pos d hj hpos
    rw [removeChunkFrom]
    by_cases hlt : j < pos
    · obtain ⟨n, rfl⟩ : ∃ n, pos = j + 1 + n := ⟨pos - j - 1, by omega⟩
      -- a region that is kept, alone or with what it was before
      have keep : ∀ r, Leaves j d (removeChunkFrom max low high fuel (j + 1) (j + 1 + n)
          (Function.update d j r))
          ((removeLoop max low high fuel (j + 1 + n) (cells d (j + 1) n)).map (r :: ·)) := by
        intro r
        have hrest : cells (Function.update d j r) (j + 1) n = cells d (j + 1) n :=
          cells_congr fun i _ => Function.update_of_ne (by omega) _ _
        have hnext := ih (j + 1) (j + 1 + n) (Function.update d j r) (by omega) hpos
        rw [Nat.add_sub_cancel_left, hrest] at hnext
        exact hnext.keep (fun i hi => Function.update_of_ne (by omega) _ _) (Function.update_self _ _ _)
      rw [if_pos hlt, show j + 1 + n - j = n + 1 by omega, cells_succ, removeLoop]
      by_cases hall : low ≤ (d j).base ∧ high ≥ (d j).end_
      · obtain ⟨d₁, hclose, hd₁⟩ := @closeGap_ok max (n + 1) j d (by omega)
        have hnext := ih j (j + 1 + n - 1) d₁ (by omega) (by omega)
        have hrest : cells d₁ j n = cells d (j + 1) n := cells_congr fun i hi => by
          rw [hd₁, if_pos (by omega), show j + i + 1 = j + 1 + i by omega]
        rw [show j + 1 + n - 1 - j = n by omega, hrest] at hnext
        rw [if_pos hall, if_pos hall, hclose]
        exact hnext.skip fun i hi => by rw [hd₁, if_neg (by omega)]
      rw [if_neg hall, if_neg hall]
      by_cases htop : low ≥ (d j).base ∧ low < (d j).end_ ∧ high ≥ (d j).end_
      · rw [if_pos htop, if_pos htop]
        exact keep _
      rw [if_neg htop, if_neg htop]
      by_cases hbottom : low ≤ (d j).base ∧ high ≤ (d j).end_ ∧ high > (d j).base
      · rw [if_pos hbottom, if_pos hbottom]
        exact keep _
      rw [if_neg hbottom, if_neg hbottom]
      by_cases hsplit : low > (d j).base ∧ low < (d j).end_ ∧ high < (d j).end_ ∧ high > (d j).base
      · rw [if_pos hsplit, if_pos hsplit]
        by_cases hfull : j + 1 + n ≥ max - 1
        · rw [if_pos hfull, if_pos hfull]
          rfl
        · obtain ⟨d₁, hsplitted, hfront, hlower, hupper⟩ :=
            @splitChunk_ok max low high d j n hpos
          have hnext := ih (j + 1) (j + 1 + n + 1) d₁ (by omega) (by omega)
          rw [show j + 1 + n + 1 - (j + 1) = n + 1 by omega, hupper] at hnext
          rw [if_neg hfull, if_neg hfull, hsplitted]
          exact hnext.keep hfront hlower
      · rw [if_neg hsplit, if_neg hsplit]
        have hkeep := keep (d j)
        rwa [Function.update_eq_self] at hkeep
    · obtain rfl : j = pos := by omega
      rw [if_neg hlt, Nat.sub_self]
      exact ⟨d, rfl, by simp [cells]⟩

end

/-! ### Room for the split -/

section

variable {max low high pos : Nat} {r : Region} {rs : List Region}

theorem map_ne_panic {f : List Region → List Region} {res : Except Fault (List Region)}
    (h : res ≠ .error .panic) : res.map f ≠ .error .panic := by
  cases res with
  | error e =>
    intro hmap
    exact h hmap
  | ok _ =>
    intro hmap
    cases hmap

/-- `[low, high]` lies inside of the region, with room at both ends. -/
def Inside (low high : Nat) (r : Region) : Prop := r.base < low ∧ high < r.end_

theorem Apart.not_inside {r' : Region} (h : Apart r r') (hle : low ≤ high) (hr : Inside low high r) :
    ¬ Inside low high r' := by
  intro hr'
  rw [Inside] at hr hr'
  exact h low ⟨by omega, by omega⟩

/-- Where no region is split, no room is needed. -/
theorem removeLoop_unsplit : ∀ (fuel pos : Nat) (rs : List Region), (∀ r ∈ rs, ¬ Inside low high r) →
    removeLoop max low high fuel pos rs ≠ .error .panic := by
  intro fuel
  induction fuel with
  | zero =>
    intro pos rs _ h
    cases h
  | succ fuel ih =>
    intro pos rs hrs
    cases rs with
    | nil =>
      intro h
      cases h
    | cons r rest =>
      have hrest : ∀ pos', removeLoop max low high fuel pos' rest ≠ .error .panic := fun pos' =>
        ih pos' rest fun r hr => hrs r (List.mem_cons_of_mem _ hr)
      have hr := hrs r List.mem_cons_self
      rw [Inside] at hr
      rw [removeLoop]
      split
      · exact hrest _
      split
      · exact map_ne_panic (hrest _)
      split
      · exact map_ne_panic (hrest _)
      rw [if_neg (by omega)]
      exact map_ne_panic (hrest _)

/-- One region of disjoint ones is split at most, so room for one more is enough. -/
theorem removeLoop_room (hle : low ≤ high) : ∀ (fuel pos : Nat) (rs : List Region),
    rs.Pairwise Apart → (∀ r ∈ rs, r.Word) → pos + 1 < max →
      removeLoop max low high fuel pos rs ≠ .error .panic := by
  intro fuel
  induction fuel with
  | zero =>
    intro pos rs _ _ _ h
    cases h
  | succ fuel ih =>
    intro pos rs hapart hw hpos
    cases rs with
    | nil =>
      intro h
      cases h
    | cons r rest =>
      have hr := (hw r List.mem_cons_self).2
      obtain ⟨hfirst, htail⟩ := List.pairwise_cons.mp hapart
      have hrest : ∀ pos', pos' + 1 < max → removeLoop max low high fuel pos' rest ≠ .error .panic :=
        fun pos' => ih pos' rest htail fun r hr => hw r (List.mem_cons_of_mem _ hr)
      rw [removeLoop]
      split
      · exact hrest _ (by omega)
      split
      · exact map_ne_panic (hrest _ hpos)
      split
      · exact map_ne_panic (hrest _ hpos)
      split
      · rename_i hsplit
        rw [if_neg (by omega), wordAdd_one_of_lt hsplit.2.2.1 hr]
        -- neither the upper part nor a region behind it is split again
        apply map_ne_panic
        apply removeLoop_unsplit
        intro r' hr'
        rcases List.mem_cons.mp hr' with rfl | hr'
        · rw [Inside]
          simp only
          omega
        · exact (hfirst r' hr').not_inside hle ⟨hsplit.1, hsplit.2.2.1⟩
      · exact map_ne_panic (hrest _ hpos)

end

/-! ### Subtraction -/

section

variable {max low high pos : Nat} {d : MemDescs} {r : Region} {rs rs' : List Region}

/-- The regions `rs'` are those of `rs` without `[low, high]`: what is left of each region, from its base
    up, in the place of the region. -/
structure Subtracts (low high : Nat) (rs rs' : List Region) : Prop where
  le : ∀ r ∈ rs', r.base ≤ r.end_
  word : ∀ r ∈ rs', r.Word
  apart : rs'.Pairwise Apart
  covered : ∀ x, Covered x rs' ↔ Covered x rs ∧ ¬ (low ≤ x ∧ x ≤ high)
  order : ∃ pieces : Region → List Region, rs' = rs.flatMap pieces ∧
    ∀ r ∈ rs, (pieces r).Pairwise (fun p q => p.end_ < q.base) ∧
      ∀ p ∈ pieces r, r.base ≤ p.base ∧ p.end_ ≤ r.end_

/-- `sys$remove_chunk` ends without a fault and subtracts `[low, high]` from the first `pos` regions. -/
def RemoveRight (max low high pos : Nat) (d : MemDescs) : Prop :=
  ∃ pos' d', sysRemoveChunk max low high pos d = .ok (pos', d') ∧
    Subtracts low high (cells d 0 pos) (cells d' 0 pos')

theorem mem_cut (h : r.base ≤ r.end_) : ∀ p ∈ cut low high r,
    r.base ≤ p.base ∧ p.base ≤ p.end_ ∧ p.end_ ≤ r.end_ := by
  intro p hp
  rw [cut] at hp
  split at hp
  · exact absurd hp List.not_mem_nil
  split at hp
  · rw [List.mem_singleton.mp hp]
    simp only
    omega
  split at hp
  · rw [List.mem_singleton.mp hp]
    simp only
    omega
  split at hp
  · simp only [List.mem_cons, List.not_mem_nil, or_false] at hp
    rcases hp with rfl | rfl
    · simp only
      omega
    · simp only
      omega
  · rw [List.mem_singleton.mp hp]
    omega

theorem pairwise_cut (hle : low ≤ high) : (cut low high r).Pairwise fun p q => p.end_ < q.base := by
  rw [cut]
  split
  · exact List.Pairwise.nil
  split
  · exact List.pairwise_singleton _ _
  split
  · exact List.pairwise_singleton _ _
  split
  · rw [List.pairwise_pair]
    simp only
    omega
  · exact List.pairwise_singleton _ _

theorem apart_flatMap_cut (hle : low ≤ high) (hrs : ∀ r ∈ rs, r.base ≤ r.end_) (hapart : rs.Pairwise Apart) :
    (rs.flatMap (cut low high)).Pairwise Apart := by
  rw [List.pairwise_flatMap]
  constructor
  · intro r _
    apply (pairwise_cut hle).imp
    intro p q hpq x hx
    omega
  · apply hapart.imp_of_mem
    intro r r' hr hr' h p hp q hq x hx
    have hp := mem_cut (hrs r hr) p hp
    have hq := mem_cut (hrs r' hr') q hq
    exact h x ⟨by omega, by omega⟩

/-- Disjoint regions with room for one more: what is left of each of them stays. -/
theorem sysRemoveChunk_eq (hle : low ≤ high) (hhigh : high < wordSize)
    (hw : ∀ r ∈ cells d 0 pos, r.Word) (hapart : (cells d 0 pos).Pairwise Apart) (hpos : pos + 1 < max) :
    ∃ d', sysRemoveChunk max low high pos d = .ok (((cells d 0 pos).flatMap (cut low high)).length, d') ∧
      cells d' 0 ((cells d 0 pos).flatMap (cut low high)).length =
        (cells d 0 pos).flatMap (cut low high) := by
  have hleaves := @removeChunkFrom_leaves max low high (2 * pos + 1) 0 pos d
    (Nat.zero_le _) (by omega)
  have hroom := removeLoop_room hle (2 * pos + 1) pos _ hapart hw hpos
  have hcut := (removeLoop_eq (hle.trans_lt hhigh) (2 * pos + 1) pos _ hw
    (by rw [length_cells]; omega)).resolve_left hroom
  rw [Nat.sub_zero, hcut] at hleaves
  obtain ⟨d', hcode, hd'⟩ := hleaves
  rw [Nat.zero_add] at hcode hd'
  exact ⟨d', hcode, by simpa [cells] using hd'⟩

/-- **Region subtraction.**  `sys$remove_chunk` takes a range out of disjoint regions exactly when no
    region of more than one address shares just its last address with the first of the range, or its
    first with the last of the range: such an address stays. -/
theorem remove_chunk_right_iff (hle : low ≤ high) (hhigh : high < wordSize)
    (hrs : ∀ r ∈ cells d 0 pos, r.base ≤ r.end_ ∧ r.end_ < wordSize)
    (hapart : (cells d 0 pos).Pairwise Apart) (hpos : pos < max - 1) :
    RemoveRight max low high pos d ↔ ∀ r ∈ cells d 0 pos, ¬ Touches low high r := by
  have hw : ∀ r ∈ cells d 0 pos, r.Word := fun r hr =>
    ⟨(hrs r hr).1.trans_lt (hrs r hr).2, (hrs r hr).2⟩
  obtain ⟨d', hcode, hd'⟩ := @sysRemoveChunk_eq max low high pos d hle hhigh hw hapart (by omega)
  constructor
  · rintro ⟨pos'', d'', hcode', hsub⟩ r hr ht
    rw [hcode] at hcode'
    obtain ⟨rfl, rfl⟩ := Prod.mk.inj (Except.ok.inj hcode')
    have hcov := hsub.covered
    rw [hd'] at hcov
    -- the region is left as it is, with the address that it shares with the range
    have hkept : cut low high r = [r] := by
      rw [Touches] at ht
      rw [cut, if_neg (by omega), if_neg (by omega), if_neg (by omega), if_neg (by omega)]
    have hmem : r ∈ (cells d 0 pos).flatMap (cut low high) :=
      List.mem_flatMap.mpr ⟨r, hr, by rw [hkept]; exact List.mem_singleton_self _⟩
    obtain ⟨-, hlt, heq | heq⟩ := ht
    · exact ((hcov low).mp ⟨r, hmem, by omega⟩).2 ⟨by omega, by omega⟩
    · exact ((hcov high).mp ⟨r, hmem, by omega⟩).2 ⟨by omega, by omega⟩
  · intro h
    refine ⟨_, d', hcode, ?_⟩
    rw [hd']
    have hpiece : ∀ p ∈ (cells d 0 pos).flatMap (cut low high), p.base ≤ p.end_ ∧ p.end_ < wordSize := by
      intro p hp
      obtain ⟨r, hr, hp⟩ := List.mem_flatMap.mp hp
      have hin := mem_cut (hrs r hr).1 p hp
      have hr := hrs r hr
      omega
    exact {
      le := fun p hp => (hpiece p hp).1
      word := fun p hp => ⟨(hpiece p hp).1.trans_lt (hpiece p hp).2, (hpiece p hp).2⟩
      apart := apart_flatMap_cut hle (fun r hr => (hrs r hr).1) hapart
      covered := fun x => covered_flatMap_cut h
      order := ⟨cut low high, rfl, fun r hr => ⟨pairwise_cut hle, fun p hp =>
        ⟨(mem_cut (hrs r hr).1 p hp).1, (mem_cut (hrs r hr).1 p hp).2.2⟩⟩⟩ }

/-- The lower and the upper part of a region that is split. -/
theorem remove_chunk_right_split :
    RemoveRight 4 3 5 1 (fun _ => ⟨1, 9⟩) ↔ ∀ r ∈ cells (fun _ => ⟨1, 9⟩) 0 1, ¬ Touches 3 5 r :=
  remove_chunk_right_iff (by decide) (by decide) (by decide) (by simp [cells]) (by decide)

/-- The range `[3, 5]` is taken out of `[5, 10]`, and 5 is still there. -/
theorem last_address_stays : ¬ RemoveRight 4 3 5 1 fun _ => ⟨5, 10⟩ := by
  rintro ⟨pos', d', hcode, hsub⟩
  have hrun : (sysRemoveChunk 4 3 5 1 fun _ => ⟨5, 10⟩).map (fun p => cells p.2 0 p.1) =
      .ok [⟨5, 10⟩] := by decide
  rw [hcode] at hrun
  have hcells : cells d' 0 pos' = [⟨5, 10⟩] := Except.ok.inj hrun
  have hcov := (hsub.covered 5).mp (by rw [hcells]; exact ⟨_, List.mem_singleton_self _, by decide⟩)
  exact hcov.2 (by decide)

end

end FreeVMS.Boot
