import FreeVMS.Boot.ElfLoader

/-!
# What the loader leaves in memory

A round of `sys$elf_loader` keeps the image as it is but for the header that it adjusts, as long as no
byte behind a part that is cleared is one of the image.  So the loader goes on to read what stands in
the image until it clears a byte that no segment has.
-/

namespace FreeVMS.Boot

open Lib.ByteMemory

attribute [local irreducible] field storeField

/-! ### A round -/

theorem sysInitmem_mem (n : Nat) (a : Addr) (s : LoadState) :
    (sysInitmem n a s).mem = clearUp n a s.mem := by
  induction n generalizing a s with
  | zero => rfl
  | succ n ih => rw [sysInitmem, ih]; rfl

theorem sysInitmem_written (n : Nat) (a b : Addr) (s : LoadState) :
    b ∈ (sysInitmem n a s).written ↔ Within a n b ∨ b ∈ s.written := by
  induction n generalizing a s with
  | zero => simp [sysInitmem, within_zero]
  | succ n ih =>
    rw [sysInitmem, ih, within_succ, LoadState.put, List.mem_cons]
    tauto

theorem sysMemcopy_mem (n : Nat) (dst src : Addr) (s : LoadState) :
    (sysMemcopy n dst src s).mem = copyUp n dst src s.mem := by
  induction n generalizing dst src s with
  | zero => rfl
  | succ n ih => rw [sysMemcopy, ih]; rfl

theorem sysMemcopy_written (n : Nat) (dst src b : Addr) (s : LoadState) :
    b ∈ (sysMemcopy n dst src s).written ↔ Within dst n b ∨ b ∈ s.written := by
  induction n generalizing dst src s with
  | zero => simp [sysMemcopy, within_zero]
  | succ n ih =>
    rw [sysMemcopy, ih, within_succ, LoadState.put, List.mem_cons]
    tauto

/-- What is done for a segment. -/
def placeSegment (bits : Fin 64) (fill : Addr → BitVec 8) (g : Segment) (s : LoadState) : LoadState :=
  sysInitmem (g.size - g.fsize) (off g.border 1)
    (sysMemcopy g.fsize g.paddr g.source
      { s with
        mem := createMemsection fill (g.base bits) (g.length bits) s.mem
        clist := (g.base bits, g.length bits) :: s.clist })

section

variable {bits : Fin 64} {fill : Addr → BitVec 8} {m mem : Mem} {start a : Addr} {i j k : Nat}
  {s : LoadState} {g : Segment}

theorem Segment.owns_file (h : Within g.paddr g.fsize a) : g.Owns a := by
  obtain ⟨k, hk, rfl⟩ := h
  exact within_off (Nat.lt_of_lt_of_le hk (Nat.le_max_left _ _))

/-- What is read of the header that has just been adjusted. -/
theorem Holds.reads (h : Holds m start (k + 1) mem) (himage : ElfImage m start)
    (hk : k < ehPhnum m start) :
    phType mem (phdr m start k) = phType m (phdr m start k) ∧
      start + phOffset mem (phdr m start k) = (segment m start k).source ∧
      phPaddr mem (phdr m start k) = (segment m start k).paddr ∧
      phFsize mem (phdr m start k) = BitVec.ofNat 64 (segment m start k).fsize ∧
      phMsize mem (phdr m start k) = BitVec.ofNat 64 (segment m start k).size := by
  obtain ⟨htype, hg⟩ := h.ph_adjusted himage hk
  refine ⟨htype, congrArg Segment.source hg, congrArg Segment.paddr hg, ?_, ?_⟩
  · apply BitVec.eq_of_toNat_eq
    rw [BitVec.toNat_ofNat, Nat.mod_eq_of_lt (segment_fsize_lt m start k)]
    exact congrArg Segment.fsize hg
  · apply BitVec.eq_of_toNat_eq
    rw [BitVec.toNat_ofNat, Nat.mod_eq_of_lt (segment_size_lt m start k)]
    exact congrArg Segment.msize hg

/-- New pages leave the image as it is. -/
theorem Holds.create (h : Holds m start k mem) (hplaced : Placed bits m start)
    (hi : Loads m start i) : Holds m start k (createMemsection fill ((segment m start i).base bits)
      ((segment m start i).length bits) mem) := by
  intro a ha
  have hout : ¬ a - (segment m start i).base bits < (segment m start i).length bits :=
    fun hlt => hplaced.apart i hi a (Segment.page_of_lt hlt) ha
  rw [createMemsection, if_neg hout, h a ha]

theorem Holds.copy (h : Holds m start k mem) (hplaced : Placed bits m start)
    (hi : Loads m start i) : Holds m start k (copyUp (segment m start i).fsize
      (segment m start i).paddr (segment m start i).source mem) := by
  intro a ha
  rw [copyUp_of_not_within, h a ha]
  exact fun hin => hplaced.apart i hi a (Segment.owns_page (Segment.owns_file hin)) ha

/-- The correction of the size in a round. -/
theorem Holds.adjust_eq (hs : Holds m start k s.mem) (himage : ElfImage m start)
    (hk : k < ehPhnum m start) :
    (if phMsize s.mem (phdr m start k) < phFsize s.mem (phdr m start k) then
      { s with mem := storeField s.mem (off (phdr m start k) 40) (phFsize s.mem (phdr m start k)).toNat 8 }
      else s) = { s with mem := adjustHeader m start k s.mem } := by
  have hg := (hs.ph himage (Nat.le_refl k) hk).2
  have hfsize : phFsize s.mem (phdr m start k) = phFsize m (phdr m start k) :=
    BitVec.eq_of_toNat_eq (congrArg Segment.fsize hg)
  have hmsize : phMsize s.mem (phdr m start k) = phMsize m (phdr m start k) :=
    BitVec.eq_of_toNat_eq (congrArg Segment.msize hg)
  have hiff : phMsize m (phdr m start k) < phFsize m (phdr m start k) ↔
      (segment m start k).msize < (segment m start k).fsize := BitVec.lt_def
  rw [hfsize, hmsize]
  by_cases hlt : phMsize m (phdr m start k) < phFsize m (phdr m start k)
  · simp only [adjustHeader, if_pos hlt, if_pos (hiff.mp hlt)]
    rfl
  · simp only [adjustHeader, if_neg hlt, if_neg (mt hiff.mpr hlt)]

/-- The length of the part that is cleared, as the code computes it. -/
theorem segment_rest (m : Mem) (start : Addr) (k : Nat) :
    (BitVec.ofNat 64 (segment m start k).size - BitVec.ofNat 64 (segment m start k).fsize).toNat =
      (segment m start k).size - (segment m start k).fsize := by
  have hfsize := Nat.mod_eq_of_lt (segment_fsize_lt m start k)
  have hsize := Nat.mod_eq_of_lt (segment_size_lt m start k)
  have hle : BitVec.ofNat 64 (segment m start k).fsize ≤ BitVec.ofNat 64 (segment m start k).size := by
    rw [BitVec.le_def, BitVec.toNat_ofNat, BitVec.toNat_ofNat, hfsize, hsize]
    exact Nat.le_max_left _ _
  rw [BitVec.toNat_sub_of_le hle, BitVec.toNat_ofNat, BitVec.toNat_ofNat, hfsize, hsize]

/-- A round on memory that holds the image. -/
theorem loadRound_eq (himage : ElfImage m start) (hplaced : Placed bits m start)
    (hk : k < ehPhnum m start) (hs : Holds m start k s.mem) :
    loadRound bits fill start k s =
      if phType m (phdr m start k) = 1 then
        placeSegment bits fill (segment m start k) { s with mem := adjustHeader m start k s.mem }
      else { s with mem := adjustHeader m start k s.mem } := by
  have hph : phdr s.mem start k = phdr m start k := (hs.eh himage (by omega)).2.2.2 k
  have hadjust := hs.adjust_eq himage hk
  have hone := hs.adjust
  obtain ⟨htype, hsource, hpaddr, hfsize₁, hmsize₁⟩ := hone.reads himage hk
  simp only [loadRound, hph, hadjust, htype]
  by_cases hload : phType m (phdr m start k) = 1
  · have hloads : Loads m start k := ⟨hk, hload⟩
    have htwo : Holds m start (k + 1) (createMemsection fill ((segment m start k).base bits)
        ((segment m start k).length bits) (adjustHeader m start k s.mem)) :=
      hone.create hplaced hloads
    obtain ⟨-, -, -, hfsize₂, -⟩ := htwo.reads himage hk
    obtain ⟨-, -, -, hfsize₃, hmsize₃⟩ := (htwo.copy hplaced hloads).reads himage hk
    have hfsize := Nat.mod_eq_of_lt (segment_fsize_lt m start k)
    rw [if_pos hload, if_pos hload]
    simp only [hsource, hpaddr, hmsize₁]
    have hbase : BitVec.ofNat 64 (pageRoundDown (segment m start k).paddr.toNat (2 ^ bits.val)) =
        (segment m start k).base bits := rfl
    have hlength : BitVec.ofNat 64 (pageRoundUp ((segment m start k).paddr +
        BitVec.ofNat 64 (segment m start k).size).toNat (2 ^ bits.val)) -
          (segment m start k).base bits = (segment m start k).length bits := rfl
    rw [hbase, hlength]
    simp only [hfsize₂, sysMemcopy_mem, BitVec.toNat_ofNat, hfsize, hfsize₃, hmsize₃, segment_rest]
    rfl
  · rw [if_neg hload, if_neg hload]

/-- The clear step begins behind the border and ends behind the segment. -/
theorem Segment.clears_iff (g : Segment) (a : Addr) : Within (off g.border 1) (g.size - g.fsize) a ↔
    ∃ c, g.fsize < c ∧ c ≤ g.size ∧ a = off g.paddr c := by
  constructor
  · rintro ⟨k, hk, rfl⟩
    rw [border, off_off, off_off]
    exact ⟨g.fsize + (1 + k), by omega, by omega, rfl⟩
  · rintro ⟨c, hlow, hhigh, rfl⟩
    refine ⟨c - g.fsize - 1, by omega, ?_⟩
    rw [border, off_off, off_off]
    congr 1
    omega

theorem Segment.cleared_iff (g : Segment) : g.Cleared ↔ g.fsize < g.size := by
  rw [Cleared, size, lt_max_iff]
  exact ⟨Or.inr, fun h => h.resolve_left (Nat.lt_irrefl _)⟩

theorem placeSegment_mem : (placeSegment bits fill g s).mem =
    clearUp (g.size - g.fsize) (off g.border 1) (copyUp g.fsize g.paddr g.source
      (createMemsection fill (g.base bits) (g.length bits) s.mem)) := by
  rw [placeSegment, sysInitmem_mem, sysMemcopy_mem]

theorem placeSegment_written : a ∈ (placeSegment bits fill g s).written ↔
    (∃ c, g.fsize < c ∧ c ≤ g.size ∧ a = off g.paddr c) ∨ Within g.paddr g.fsize a ∨
      a ∈ s.written := by
  rw [placeSegment, sysInitmem_written, sysMemcopy_written, g.clears_iff]

/-- Nothing changes but the pages and the byte behind a part that is cleared. -/
theorem placeSegment_outside (hpage : ¬ g.Page bits a) (hbehind : g.Cleared → a ≠ g.behind) :
    (placeSegment bits fill g s).mem a = s.mem a := by
  have hclear : ¬ Within (off g.border 1) (g.size - g.fsize) a := by
    rw [g.clears_iff]
    rintro ⟨c, hlow, hhigh, rfl⟩
    rcases Nat.lt_or_eq_of_le hhigh with hlt | rfl
    · exact hpage (Segment.owns_page (within_off hlt))
    · exact hbehind (g.cleared_iff.mpr hlow) rfl
  have hcopy : ¬ Within g.paddr g.fsize a :=
    fun hin => hpage (Segment.owns_page (Segment.owns_file hin))
  rw [placeSegment_mem, clearUp_of_not_within hclear, copyUp_of_not_within hcopy, createMemsection,
    if_neg fun hlt => hpage (Segment.page_of_lt hlt)]

theorem placeSegment_clears {c : Nat} (hlow : g.fsize < c) (hhigh : c ≤ g.size) :
    (placeSegment bits fill g s).mem (off g.paddr c) = 0 := by
  rw [placeSegment_mem]
  exact clearUp_of_within ((g.clears_iff _).mpr ⟨c, hlow, hhigh, rfl⟩)

theorem not_clears {c : Nat} (hc : c ≤ g.fsize) (hsize : g.size < 2 ^ 64) :
    ¬ Within (off g.border 1) (g.size - g.fsize) (off g.paddr c) := by
  rw [g.clears_iff]
  rintro ⟨d, hlow, hhigh, heq⟩
  rw [off_inj (by omega) (by omega)] at heq
  omega

/-- What a byte of a segment is when the segment has been loaded. -/
def own (fill : Addr → BitVec 8) (m : Mem) (start : Addr) (i c : Nat) : BitVec 8 :=
  let g := segment m start i
  if c < g.fsize then adjusted m start (i + 1) (off g.source c)
  else if c = g.fsize then fill g.border
  else 0

theorem placeSegment_own (hplaced : Placed bits m start) (hi : Loads m start i)
    (hs : Holds m start (i + 1) s.mem) {c : Nat} (hc : c < (segment m start i).size) :
    (placeSegment bits fill (segment m start i) s).mem (off (segment m start i).paddr c) =
      own fill m start i c := by
  have hsize := segment_size_lt m start i
  have hfsize := segment_fsize_lt m start i
  simp only [own]
  rcases Nat.lt_trichotomy c (segment m start i).fsize with hlt | heq | hgt
  · have himage : ∀ k, k < (segment m start i).fsize →
        ImageByte m start (off (segment m start i).source k) :=
      fun k hk => Or.inr (Or.inr ⟨i, hi, within_off hk⟩)
    have hapart : ∀ k, k < (segment m start i).fsize →
        ¬ Within (segment m start i).paddr (segment m start i).fsize
          (off (segment m start i).source k) := fun k hk hin =>
      hplaced.apart i hi _ (Segment.owns_page (Segment.owns_file hin)) (himage k hk)
    rw [if_pos hlt, placeSegment_mem, clearUp_of_not_within (not_clears (by omega) hsize),
      copyUp_off (by omega) hapart hlt]
    exact hs.create hplaced hi _ (himage c hlt)
  · have hcopy : ¬ Within (segment m start i).paddr (segment m start i).fsize
        (off (segment m start i).paddr c) := by
      rintro ⟨k, hk, hoff⟩
      rw [off_inj (by omega) (by omega)] at hoff
      omega
    have hout : ¬ (segment m start i).Page bits start := fun hpage =>
      hplaced.apart i hi _ hpage (Or.inl ⟨0, by omega, (off_zero start).symm⟩)
    rw [if_neg (by omega), if_pos heq, placeSegment_mem,
      clearUp_of_not_within (not_clears (by omega) hsize), copyUp_of_not_within hcopy,
      createMemsection, if_pos (Segment.lt_of_page hout (Segment.owns_page (within_off hc))),
      Segment.border, heq]
  · rw [if_neg (by omega), if_neg (by omega)]
    exact placeSegment_clears hgt (Nat.le_of_lt hc)

end

/-! ### A run -/

section

variable {bits : Fin 64} {fill : Addr → BitVec 8} {m : Mem} {start a : Addr} {i k n : Nat}
  {s : LoadState}

/-- The byte behind a part that is cleared belongs to a segment. -/
def Followed (m : Mem) (start : Addr) (i : Nat) : Prop :=
  Loads m start i → (segment m start i).Cleared →
    ∃ j, Loads m start j ∧ (segment m start j).Owns (segment m start i).behind

/-- The state before round `k`. -/
structure Progress (fill : Addr → BitVec 8) (m : Mem) (start : Addr) (k : Nat) (s : LoadState) :
    Prop where
  image : Holds m start k s.mem
  zero : ∀ i, i < k → Loads m start i → ∀ c, c < (segment m start i).size →
    ClearsBetween m start i k (off (segment m start i).paddr c) →
      s.mem (off (segment m start i).paddr c) = 0
  own : ∀ i, i < k → Loads m start i → ∀ c, c < (segment m start i).size →
    ¬ ClearsBetween m start i k (off (segment m start i).paddr c) →
      s.mem (off (segment m start i).paddr c) = own fill m start i c
  inside : ∀ a ∈ s.written, ∃ i, i < k ∧ Loads m start i ∧
    ((segment m start i).Owns a ∨ (segment m start i).Cleared ∧ a = (segment m start i).behind)

theorem clearsBetween_succ : ClearsBetween m start i (k + 1) a ↔ ClearsBetween m start i k a ∨
    i < k ∧ Loads m start k ∧ (segment m start k).Cleared ∧ (segment m start k).behind = a := by
  constructor
  · rintro ⟨l, hil, hlk, hl⟩
    rcases Nat.lt_or_eq_of_le (Nat.le_of_lt_succ hlk) with hlt | rfl
    · exact Or.inl ⟨l, hil, hlt, hl⟩
    · exact Or.inr ⟨hil, hl⟩
  · rintro (⟨l, hil, hlk, hl⟩ | ⟨hik, hl⟩)
    · exact ⟨l, hil, by omega, hl⟩
    · exact ⟨k, hik, by omega, hl⟩

/-- The bytes of a segment are none of the image. -/
theorem Placed.owns_apart (h : Placed bits m start) (hi : Loads m start i)
    (ha : (segment m start i).Owns a) : ¬ ImageByte m start a :=
  h.apart i hi a (Segment.owns_page ha)

theorem adjustHeader_apart (hk : k < ehPhnum m start) (ha : ¬ ImageByte m start a) {mem : Mem} :
    adjustHeader m start k mem a = mem a :=
  adjustHeader_of_not_within fun hin => ha (Or.inr (Or.inl ⟨k, hk, within_msize hin⟩))

/-- Loading the segment `k` leaves the others as they are, but for the byte behind it. -/
theorem placeSegment_keeps (hplaced : Placed bits m start) (hload : Loads m start k)
    (hi : Loads m start i) (hik : i ≠ k) {c : Nat} (hc : c < (segment m start i).size)
    (hne : ¬ ((segment m start k).Cleared ∧
      (segment m start k).behind = off (segment m start i).paddr c)) :
    (placeSegment bits fill (segment m start k) { s with mem := adjustHeader m start k s.mem }).mem
      (off (segment m start i).paddr c) = s.mem (off (segment m start i).paddr c) := by
  have hpage : (segment m start i).Page bits (off (segment m start i).paddr c) :=
    Segment.owns_page (within_off hc)
  rw [placeSegment_outside (hplaced.disjoint i k hi hload hik _ hpage)
    fun hcleared heq => hne ⟨hcleared, heq.symm⟩]
  exact adjustHeader_apart hload.1 (hplaced.owns_apart hi (within_off hc))

theorem Progress.load (h : Progress fill m start k s) (hplaced : Placed bits m start)
    (hload : Loads m start k) (hfollowed : Followed m start k) :
    Progress fill m start (k + 1)
      (placeSegment bits fill (segment m start k) { s with mem := adjustHeader m start k s.mem }) := by
  have himage : Holds m start (k + 1) (adjustHeader m start k s.mem) := h.image.adjust
  refine ⟨?_, ?_, ?_, ?_⟩
  · intro a ha
    rw [placeSegment_outside (fun hpage => hplaced.apart k hload a hpage ha) ?_]
    · exact himage a ha
    · rintro hcleared rfl
      obtain ⟨j, hj, hin⟩ := hfollowed hload hcleared
      exact hplaced.owns_apart hj hin ha
  · intro i hik hi c hc hbetween
    rcases Nat.lt_or_eq_of_le (Nat.le_of_lt_succ hik) with hlt | rfl
    · by_cases hnow : (segment m start k).Cleared ∧
          (segment m start k).behind = off (segment m start i).paddr c
      · rw [← hnow.2]
        exact placeSegment_clears ((segment m start k).cleared_iff.mp hnow.1) (Nat.le_refl _)
      · rw [placeSegment_keeps hplaced hload hi (Nat.ne_of_lt hlt) hc hnow]
        refine h.zero i hlt hi c hc ?_
        exact (clearsBetween_succ.mp hbetween).resolve_right fun hlast => hnow hlast.2.2
    · obtain ⟨l, hl, hl', -⟩ := hbetween
      omega
  · intro i hik hi c hc hbetween
    rw [clearsBetween_succ, not_or] at hbetween
    rcases Nat.lt_or_eq_of_le (Nat.le_of_lt_succ hik) with hlt | rfl
    · rw [placeSegment_keeps hplaced hload hi (Nat.ne_of_lt hlt) hc fun hnow =>
        hbetween.2 ⟨hlt, hload, hnow⟩]
      exact h.own i hlt hi c hc hbetween.1
    · exact placeSegment_own hplaced hi himage hc
  · intro a ha
    rcases placeSegment_written.mp ha with ⟨c, hlow, hhigh, rfl⟩ | hcopy | hbefore
    · refine ⟨k, by omega, hload, ?_⟩
      rcases Nat.lt_or_eq_of_le hhigh with hlt | rfl
      · exact Or.inl (within_off hlt)
      · exact Or.inr ⟨(segment m start k).cleared_iff.mpr hlow, rfl⟩
    · exact ⟨k, by omega, hload, Or.inl (Segment.owns_file hcopy)⟩
    · obtain ⟨i, hi, hrest⟩ := h.inside a hbefore
      exact ⟨i, by omega, hrest⟩

/-- A header of another type only has its size corrected. -/
theorem Progress.skip (h : Progress fill m start k s) (hplaced : Placed bits m start)
    (hk : k < ehPhnum m start) (htype : phType m (phdr m start k) ≠ 1) :
    Progress fill m start (k + 1) { s with mem := adjustHeader m start k s.mem } := by
  have hbetween : ∀ i a, ClearsBetween m start i (k + 1) a ↔ ClearsBetween m start i k a := by
    intro i a
    rw [clearsBetween_succ]
    exact or_iff_left fun hlast => htype hlast.2.1.2
  have hlt : ∀ i, i < k + 1 → Loads m start i → i < k := by
    intro i hi hload
    rcases Nat.lt_or_eq_of_le (Nat.le_of_lt_succ hi) with hlt | rfl
    · exact hlt
    · exact absurd hload.2 htype
  refine ⟨h.image.adjust, ?_, ?_, ?_⟩
  · intro i hi hload c hc hclears
    refine (adjustHeader_apart hk (hplaced.owns_apart hload (within_off hc))).trans ?_
    exact h.zero i (hlt i hi hload) hload c hc ((hbetween _ _).mp hclears)
  · intro i hi hload c hc hclears
    refine (adjustHeader_apart hk (hplaced.owns_apart hload (within_off hc))).trans ?_
    exact h.own i (hlt i hi hload) hload c hc fun hb => hclears ((hbetween _ _).mpr hb)
  · intro a ha
    obtain ⟨i, hi, hrest⟩ := h.inside a ha
    exact ⟨i, by omega, hrest⟩

/-- A round keeps the invariant when the byte behind it belongs to a segment. -/
theorem Progress.round (h : Progress fill m start k s) (himage : ElfImage m start)
    (hplaced : Placed bits m start) (hk : k < ehPhnum m start) (hfollowed : Followed m start k) :
    Progress fill m start (k + 1) (loadRound bits fill start k s) := by
  rw [loadRound_eq himage hplaced hk h.image]
  by_cases htype : phType m (phdr m start k) = 1
  · rw [if_pos htype]
    exact h.load hplaced ⟨hk, htype⟩ hfollowed
  · rw [if_neg htype]
    exact h.skip hplaced hk htype

theorem Progress.init (fill : Addr → BitVec 8) (m : Mem) (start : Addr) :
    Progress fill m start 0 ⟨m, [], []⟩ :=
  ⟨fun _ _ => rfl, fun i hi => absurd hi (Nat.not_lt_zero i), fun i hi =>
    absurd hi (Nat.not_lt_zero i), fun _ ha => absurd ha List.not_mem_nil⟩

/-- The loop, when every byte behind a part that is cleared belongs to a segment. -/
theorem Progress.loop (h : Progress fill m start k s) (himage : ElfImage m start)
    (hplaced : Placed bits m start) (hfollowed : ∀ i, Followed m start i) {fuel : Nat}
    (hk : k ≤ ehPhnum m start) (hfuel : ehPhnum m start ≤ k + fuel) :
    Progress fill m start (ehPhnum m start) (loadLoop bits fill start fuel k s) := by
  induction fuel generalizing k s with
  | zero =>
    obtain rfl : k = ehPhnum m start := by omega
    exact h
  | succ fuel ih =>
    rw [loadLoop, (h.image.eh himage hk).2.2.1]
    split_ifs with hlt
    · exact ih (h.round himage hplaced hlt (hfollowed k)) (by omega) (by omega)
    · obtain rfl : k = ehPhnum m start := by omega
      exact h

theorem loadRound_written (ha : a ∈ s.written) : a ∈ (loadRound bits fill start k s).written := by
  have hplace : ∀ n l dst src zone (s : LoadState), a ∈ s.written →
      a ∈ (sysInitmem n zone (sysMemcopy l dst src s)).written := fun n l dst src zone s hs =>
    (sysInitmem_written _ _ _ _).mpr (Or.inr ((sysMemcopy_written _ _ _ _ _).mpr (Or.inr hs)))
  simp only [loadRound]
  split_ifs
  · exact hplace _ _ _ _ _ _ ha
  · exact ha
  · exact hplace _ _ _ _ _ _ ha
  · exact ha

theorem loadLoop_written {fuel : Nat} (ha : a ∈ s.written) :
    a ∈ (loadLoop bits fill start fuel k s).written := by
  induction fuel generalizing k s with
  | zero => exact ha
  | succ fuel ih =>
    rw [loadLoop]
    split_ifs
    · exact ih (loadRound_written ha)
    · exact ha

/-- The first byte behind a part that is cleared is written, when those before belong to segments. -/
theorem Progress.behind_written (h : Progress fill m start k s) (himage : ElfImage m start)
    (hplaced : Placed bits m start) (hki : k ≤ i) (hfollowed : ∀ j, j < i → Followed m start j)
    (hload : Loads m start i) (hcleared : (segment m start i).Cleared) {fuel : Nat}
    (hfuel : ehPhnum m start ≤ k + fuel) :
    (segment m start i).behind ∈ (loadLoop bits fill start fuel k s).written := by
  have hi := hload.1
  induction fuel generalizing k s with
  | zero => omega
  | succ fuel ih =>
    rw [loadLoop, (h.image.eh himage (by omega)).2.2.1, if_pos (by omega)]
    rcases Nat.lt_or_eq_of_le hki with hlt | rfl
    · exact ih (h.round himage hplaced (by omega) (hfollowed k hlt)) (by omega) (by omega)
    · refine loadLoop_written ?_
      rw [loadRound_eq himage hplaced hi h.image, if_pos hload.2, placeSegment_written]
      exact Or.inl ⟨_, (segment m start k).cleared_iff.mp hcleared, Nat.le_refl _, rfl⟩

theorem ElfImage.accepted (h : ElfImage m start) : sysElfLoader bits fill start m =
    some (ehEntry (loadLoop bits fill start 65536 0 ⟨m, [], []⟩).mem start,
      loadLoop bits fill start 65536 0 ⟨m, [], []⟩) := by
  rw [sysElfLoader, if_neg]
  rw [not_or, not_not]
  exact ⟨h.type, h.phoff⟩

/-- In an image that is loaded right, each part that is cleared is followed. -/
theorem LoadRight.followed (h : LoadRight bits fill m start) (himage : ElfImage m start)
    (hplaced : Placed bits m start) (i : Nat) : Followed m start i := by
  obtain ⟨entry, s, hrun, hloaded⟩ := h
  rw [himage.accepted, Option.some.injEq, Prod.mk.injEq] at hrun
  obtain ⟨-, rfl⟩ := hrun
  have hnum := ehPhnum_lt m start
  induction i using Nat.strongRecOn with
  | ind i ih =>
    intro hload hcleared
    exact hloaded.inside _ ((Progress.init fill m start).behind_written himage hplaced
      (Nat.zero_le i) ih hload hcleared (by omega))

/-- What is in memory at the end. -/
theorem Progress.loaded_iff (h : Progress fill m start (ehPhnum m start) s)
    (hfollowed : ∀ i, Followed m start i) : Loaded m start s ↔ LoadCondition fill m start := by
  constructor
  · intro hloaded
    refine ⟨hfollowed, ?_, ?_, ?_⟩
    · intro i hi hcleared
      by_contra hnot
      rw [not_or] at hnot
      have hlt := (segment m start i).cleared_iff.mp hcleared
      have hzero := hloaded.zero i hi _ (Nat.le_refl _) hlt
      rw [h.own i hi.1 hi _ hlt hnot.2, Boot.own] at hzero
      simp only [Nat.lt_irrefl, if_false, if_true] at hzero
      exact hnot.1 hzero
    · intro i hi c hc hclears
      rw [← hloaded.file i hi c hc]
      exact h.zero i hi.1 hi c (Nat.lt_of_lt_of_le hc (Nat.le_max_left _ _)) hclears
    · intro i hi c hc hclears
      rw [← hloaded.file i hi c hc,
        h.own i hi.1 hi c (Nat.lt_of_lt_of_le hc (Nat.le_max_left _ _)) hclears, Boot.own]
      simp only [if_pos hc]
  · intro hcondition
    refine ⟨?_, ?_, ?_⟩
    · intro i hi c hc
      have hsize : c < (segment m start i).size := Nat.lt_of_lt_of_le hc (Nat.le_max_left _ _)
      by_cases hclears : LaterClears m start i (off (segment m start i).paddr c)
      · rw [h.zero i hi.1 hi c hsize hclears, hcondition.cleared i hi c hc hclears]
      · rw [h.own i hi.1 hi c hsize hclears, ← hcondition.copied i hi c hc hclears, Boot.own]
        simp only [if_pos hc]
    · intro i hi c hlow hc
      by_cases hclears : LaterClears m start i (off (segment m start i).paddr c)
      · exact h.zero i hi.1 hi c hc hclears
      · rw [h.own i hi.1 hi c hc hclears, Boot.own]
        simp only [if_neg (Nat.not_lt.mpr hlow)]
        split_ifs with heq
        · subst heq
          exact (hcondition.border i hi ((segment m start i).cleared_iff.mpr hc)).resolve_right hclears
        · rfl
    · intro a ha
      obtain ⟨i, -, hi, howns | ⟨hcleared, rfl⟩⟩ := h.inside a ha
      · exact ⟨i, hi, howns⟩
      · exact hfollowed i hi hcleared

/-- The condition is exact. -/
theorem load_right_iff (bits : Fin 64) (fill : Addr → BitVec 8) (m : Mem) (start : Addr)
    (himage : ElfImage m start) (hplaced : Placed bits m start) :
    LoadRight bits fill m start ↔ LoadCondition fill m start := by
  have hnum := ehPhnum_lt m start
  have hend : (∀ i, Followed m start i) → Progress fill m start (ehPhnum m start)
      (loadLoop bits fill start 65536 0 ⟨m, [], []⟩) := fun hfollowed =>
    (Progress.init fill m start).loop himage hplaced hfollowed (Nat.zero_le _) (by omega)
  constructor
  · intro h
    have hfollowed := h.followed himage hplaced
    obtain ⟨entry, s, hrun, hloaded⟩ := h
    rw [himage.accepted, Option.some.injEq, Prod.mk.injEq] at hrun
    obtain ⟨-, rfl⟩ := hrun
    exact ((hend hfollowed).loaded_iff hfollowed).mp hloaded
  · intro h
    exact ⟨_, _, himage.accepted, ((hend h.followed).loaded_iff h.followed).mpr h⟩

end

/-- Segments that are all file, and headers that say so. -/
theorem condition_of_full {fill : Addr → BitVec 8} {m : Mem} {start : Addr}
    (h : ∀ i, i < ehPhnum m start → (segment m start i).msize = (segment m start i).fsize) :
    LoadCondition fill m start := by
  have hcleared : ∀ i, Loads m start i → ¬ (segment m start i).Cleared := by
    intro i hi hlt
    rw [Segment.Cleared, h i hi.1] at hlt
    exact Nat.lt_irrefl _ hlt
  have hlater : ∀ i a, ¬ LaterClears m start i a := by
    rintro i a ⟨l, -, -, hl, hlt, -⟩
    exact hcleared l hl hlt
  have hadjusted : ∀ k, k ≤ ehPhnum m start → adjusted m start k = m := by
    intro k hk
    induction k with
    | zero => rfl
    | succ k ih =>
      simp only [adjusted, adjustHeader, h k (by omega), Nat.lt_irrefl, if_false]
      exact ih (by omega)
  refine ⟨fun i hi hlt => absurd hlt (hcleared i hi), fun i hi hlt => absurd hlt (hcleared i hi),
    fun i _ _ _ hclears => absurd hclears (hlater i _), fun i hi k _ _ => ?_⟩
  rw [hadjusted (i + 1) hi.1]

/-! ### A segment of one byte to be cleared -/

/-- An image at `0x100000` with one program header: no byte of the file and one byte of memory at
    `0x400000`. -/
def bssImage : Mem := fun a =>
  if a = 0x100010 then 2
  else if a = 0x100020 then 64
  else if a = 0x100036 then 56
  else if a = 0x100038 then 1
  else if a = 0x100040 then 1
  else if a = 0x10005a then 0x40
  else if a = 0x100068 then 1
  else 0

theorem bssImage_header : ehType bssImage 0x100000 = 2 ∧ ehPhoff bssImage 0x100000 = 64 ∧
    ehPhentsize bssImage 0x100000 = 56 ∧ ehPhnum bssImage 0x100000 = 1 := by
  decide +kernel

theorem bssImage_phdr : phdr bssImage 0x100000 0 = 0x100040 ∧
    phType bssImage (phdr bssImage 0x100000 0) = 1 ∧
    segment bssImage 0x100000 0 = ⟨0x100000, 0x400000, 0, 1⟩ := by
  decide +kernel

theorem bssImage_elf : ElfImage bssImage 0x100000 := by
  obtain ⟨htype, hphoff, hphentsize, hphnum⟩ := bssImage_header
  refine ⟨htype, by rw [hphoff]; decide, by omega, ?_⟩
  intro i hi a
  obtain rfl : i = 0 := by omega
  rw [bssImage_phdr.1]
  rintro ⟨k, hk, rfl⟩ ⟨l, hl, heq⟩
  have hoff : (0x100040 : Addr) = off 0x100000 64 := by decide
  rw [hoff, off_off, off_inj (by omega) (by omega)] at heq
  omega

theorem bssImage_loads {i : Nat} (h : Loads bssImage 0x100000 i) : i = 0 := by
  have hlt := h.1
  rw [bssImage_header.2.2.2] at hlt
  omega

theorem bssImage_placed : Placed 12 bssImage 0x100000 := by
  refine ⟨fun i j hi hj hij => absurd ((bssImage_loads hi).trans (bssImage_loads hj).symm) hij, ?_⟩
  intro i hi a
  obtain rfl := bssImage_loads hi
  rw [Segment.page_iff, bssImage_phdr.2.2]
  rintro ⟨x, hlow, hhigh, rfl⟩
  have hbounds : 0x400000 ≤ x ∧ x < 0x401000 := ⟨hlow, hhigh⟩
  have hlt : ∀ p n, p + n ≤ 0x400000 → ¬ Within (BitVec.ofNat 64 p) n (BitVec.ofNat 64 x) := by
    rintro p n hpn ⟨k, hk, heq⟩
    rw [off, ← BitVec.ofNat_add, ← BitVec.toNat_inj, BitVec.toNat_ofNat, BitVec.toNat_ofNat] at heq
    omega
  rintro (heh | ⟨j, hj, hph⟩ | ⟨j, hj, hfile⟩)
  · exact hlt 0x100000 64 (by omega) heh
  · rw [bssImage_header.2.2.2] at hj
    obtain rfl : j = 0 := by omega
    rw [bssImage_phdr.1] at hph
    exact hlt 0x100040 56 (by omega) hph
  · obtain rfl := bssImage_loads hj
    rw [bssImage_phdr.2.2] at hfile
    exact within_zero hfile

/-- The condition for that image. -/
theorem bssImage_right_iff : LoadRight 12 (fun _ => 0) bssImage 0x100000 ↔
    LoadCondition (fun _ => 0) bssImage 0x100000 :=
  load_right_iff 12 (fun _ => 0) bssImage 0x100000 bssImage_elf bssImage_placed

/-- Even on pages that are zero it is not loaded right: the byte at `0x400001` is written. -/
theorem bssImage_wrong : ¬ LoadRight 12 (fun _ => 0) bssImage 0x100000 := by
  intro h
  have hload : Loads bssImage 0x100000 0 := by
    refine ⟨?_, bssImage_phdr.2.1⟩
    rw [bssImage_header.2.2.2]
    omega
  have hcleared : (segment bssImage 0x100000 0).Cleared := by
    rw [bssImage_phdr.2.2]
    exact Nat.one_pos
  obtain ⟨j, hj, howns⟩ := h.followed bssImage_elf bssImage_placed 0 hload hcleared
  obtain rfl := bssImage_loads hj
  rw [bssImage_phdr.2.2] at howns
  obtain ⟨k, hk, heq⟩ := howns
  have hk : k < 1 := hk
  rw [Segment.behind, off_inj (by decide) (by omega)] at heq
  have hone : 1 = k := heq
  omega

end FreeVMS.Boot
