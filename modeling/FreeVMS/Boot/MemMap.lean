import FreeVMS.Boot.Regions
import FreeVMS.Lib.Run
import Mathlib.Data.List.Pairwise

/-!
# The memory map

`sys$find_memory_region` reads the memory descriptors of the kernel interface page and makes an array
of regions of them: a descriptor of one of the wanted types is added, one of the excepted types is
taken out.  A descriptor that overlaps a region is merged into it, and the search stops at the first
region it is merged with.
-/

namespace FreeVMS.Boot

open Alloc Run

/-- `L4_MemoryDesc_t`: bounds in units of 1 KiB, the type, and whether it is about virtual memory. -/
structure MemoryDesc where
  low : Nat
  high : Nat
  type : Nat
  v : Bool
  low_lt : low < 2 ^ 54
  high_lt : high < 2 ^ 54
deriving DecidableEq

/-- `L4_MemoryDescLow`. -/
def l4MemoryDescLow (m : MemoryDesc) : Nat := m.low * 2 ^ 10

/-- `L4_MemoryDescHigh`. -/
def l4MemoryDescHigh (m : MemoryDesc) : Nat := m.high * 2 ^ 10 + 0x3ff

def l4ConventionalMemoryType : Nat := 1
def l4ReservedMemoryType : Nat := 2
def l4DedicatedMemoryType : Nat := 3
def l4SharedMemoryType : Nat := 4

/-- `VMS$MEM_RAM` and the other kinds of memory, as bits. -/
def memRam : Nat := 1
def memIo : Nat := 2
def memVm : Nat := 4
def memOther : Nat := 8

/-- The bounds of a descriptor, its type, and whether it is about physical memory. -/
structure MemoryInfo where
  low : Nat
  high : Nat
  type : Nat
  physical : Bool

/-- `sys$find_memory_info`. -/
def findMemoryInfo (m : MemoryDesc) : Except Fault MemoryInfo :=
  if l4MemoryDescHigh m ≤ l4MemoryDescLow m then .error .panic
  else .ok ⟨l4MemoryDescLow m, l4MemoryDescHigh m, m.type, !m.v⟩

/-- `mem_desc_type` of `sys$find_memory_region`. -/
def memDescType (m : MemoryDesc) : Nat :=
  if m.v then memVm
  else if m.type = l4ConventionalMemoryType then memRam
  else if m.type = l4SharedMemoryType ∨ m.type = l4DedicatedMemoryType then memIo
  else memOther

/-- The inner loop of `sys$find_memory_region`; `none` when no region covers the new one. -/
def mergeLoop (low high : Nat) : List Region → Option (List Region)
  | [] => none
  | r :: rest =>
      if low ≥ r.base ∧ low < r.end_ ∧ high ≥ r.end_ then some (⟨r.base, high⟩ :: rest)
      else if low ≤ r.base ∧ high ≤ r.end_ ∧ high > r.base then
        some (⟨wordAdd high 1, r.end_⟩ :: rest)
      else if low > r.base ∧ low < r.end_ ∧ high < r.end_ ∧ high > r.base then some (r :: rest)
      else (mergeLoop low high rest).map (r :: ·)

section

variable (max memoryType exceptType : Nat)

/-- One round of the outer loop of `sys$find_memory_region`. -/
def findStep (m : MemoryDesc) (rs : List Region) : Except Fault (List Region) := do
  let info ← findMemoryInfo m
  if memDescType m &&& memoryType ≠ 0 then
    if rs.length ≥ max - 1 then .error .panic
    else
      match mergeLoop info.low info.high rs with
      | some rs' => .ok rs'
      | none => .ok (rs ++ [⟨info.low, info.high⟩])
  else if memDescType m &&& exceptType ≠ 0 then removeChunk max info.low info.high rs
  else .ok rs

/-- `sys$find_memory_region`. -/
def findMemoryRegion (ms : List MemoryDesc) : Except Fault (List Region) :=
  runs (findStep max memoryType exceptType) ms []

end

/-! ### What the descriptors say -/

/-- `m` is about the address. -/
def MemoryDesc.Has (m : MemoryDesc) (x : Nat) : Prop := l4MemoryDescLow m ≤ x ∧ x ≤ l4MemoryDescHigh m

/-- The addresses after one more descriptor: union with a descriptor of a wanted type, difference with
    one of an excepted type. -/
def describe (memoryType exceptType : Nat) (S : Nat → Prop) (m : MemoryDesc) (x : Nat) : Prop :=
  if memDescType m &&& memoryType ≠ 0 then S x ∨ m.Has x
  else if memDescType m &&& exceptType ≠ 0 then S x ∧ ¬ m.Has x
  else S x

/-- The addresses that a list of descriptors describes. -/
def described (memoryType exceptType : Nat) (ms : List MemoryDesc) : Nat → Prop :=
  ms.foldl (describe memoryType exceptType) fun _ => False

/-- No address is in both regions. -/
def Apart (r r' : Region) : Prop :=
  ∀ x, ¬ ((r.base ≤ x ∧ x ≤ r.end_) ∧ (r'.base ≤ x ∧ x ≤ r'.end_))

/-- The regions are pairwise disjoint and cover exactly the addresses of `S`. -/
structure Mapped (rs : List Region) (S : Nat → Prop) : Prop where
  apart : rs.Pairwise Apart
  covered : ∀ x, Covered x rs ↔ S x

/-- `[low, high]` has an address of the region. -/
def Region.Meets (low high : Nat) (r : Region) : Prop := r.base ≤ high ∧ low ≤ r.end_

/-- The region begins below `[low, high]`, or with it and does not go on beyond it. -/
def Region.Takes (low high : Nat) (r : Region) : Prop := r.base ≤ low ∧ (r.end_ ≤ high ∨ r.base < low)

/-- The regions that the loop adds `[low, high]` to rightly: none of them meets it, or one alone does
    and takes it.  (When `[low, high]` is the whole address space, `high + 1` wraps to 0, and the only
    region becomes all of it too if it ends there.) -/
def Mergeable (low high : Nat) (rs : List Region) : Prop :=
  (∀ r ∈ rs, ¬ r.Meets low high) ∨
  (∃ r ∈ rs, r.Meets low high ∧ r.Takes low high ∧ ∀ r' ∈ rs, r'.Meets low high → r' = r) ∨
  (rs.length = 1 ∧ low = 0 ∧ high = wordSize - 1 ∧ ∀ r ∈ rs, 0 < r.base ∧ r.end_ = wordSize - 1)

/-- A step of the loop is right when what it adds is mergeable. -/
def DescOk (memoryType : Nat) (m : MemoryDesc) (rs : List Region) : Prop :=
  memDescType m &&& memoryType ≠ 0 → Mergeable (l4MemoryDescLow m) (l4MemoryDescHigh m) rs

instance (low high : Nat) (r : Region) : Decidable (r.Meets low high) :=
  inferInstanceAs (Decidable (_ ∧ _))

instance (low high : Nat) (r : Region) : Decidable (r.Takes low high) :=
  inferInstanceAs (Decidable (_ ∧ _))

instance (low high : Nat) (rs : List Region) : Decidable (Mergeable low high rs) :=
  inferInstanceAs (Decidable (_ ∨ _ ∨ _))

instance (memoryType : Nat) (m : MemoryDesc) (rs : List Region) : Decidable (DescOk memoryType m rs) :=
  inferInstanceAs (Decidable (_ → _))

/-- Descriptors are in units of this size. -/
def descGrain : Nat := 2 ^ 10

/-- Disjoint regions of whole grains, none of them empty. -/
structure Tidy (rs : List Region) : Prop where
  grained : ∀ r ∈ rs, r.Grained descGrain
  proper : ∀ r ∈ rs, r.base ≤ r.end_
  apart : rs.Pairwise Apart

section

variable {max memoryType exceptType low high x : Nat} {m : MemoryDesc} {r r' : Region}
  {rs rs' l t : List Region}

theorem Apart.symm (h : Apart r r') : Apart r' r := fun x hx => h x ⟨hx.2, hx.1⟩

theorem apart_middle :
    (l ++ r :: t).Pairwise Apart ↔ (∀ q ∈ l ++ t, Apart r q) ∧ (l ++ t).Pairwise Apart := by
  rw [List.Perm.pairwise_iff (fun h => Apart.symm h) List.perm_middle, List.pairwise_cons]

theorem covered_middle :
    Covered x (l ++ r :: t) ↔ (r.base ≤ x ∧ x ≤ r.end_) ∨ Covered x (l ++ t) := by
  simp only [covered_append, covered_cons]
  tauto

theorem findMemoryInfo_eq {info : MemoryInfo} (h : findMemoryInfo m = .ok info) :
    info.low = l4MemoryDescLow m ∧ info.high = l4MemoryDescHigh m ∧
      l4MemoryDescLow m < l4MemoryDescHigh m := by
  rw [findMemoryInfo] at h
  split at h
  · exact nomatch h
  · obtain rfl := Except.ok.inj h
    exact ⟨rfl, rfl, by omega⟩

/-- What a step can do. -/
theorem findStep_cases (h : findStep max memoryType exceptType m rs = .ok rs') :
    l4MemoryDescLow m < l4MemoryDescHigh m ∧
    ((memDescType m &&& memoryType ≠ 0 ∧
        (mergeLoop (l4MemoryDescLow m) (l4MemoryDescHigh m) rs).getD
          (rs ++ [⟨l4MemoryDescLow m, l4MemoryDescHigh m⟩]) = rs') ∨
      (memDescType m &&& memoryType = 0 ∧ memDescType m &&& exceptType ≠ 0 ∧
        removeChunk max (l4MemoryDescLow m) (l4MemoryDescHigh m) rs = .ok rs') ∨
      (memDescType m &&& memoryType = 0 ∧ memDescType m &&& exceptType = 0 ∧ rs' = rs)) := by
  rw [findStep] at h
  cases hinfo : findMemoryInfo m with
  | error e =>
    rw [hinfo] at h
    exact nomatch h
  | ok info =>
    obtain ⟨hlow, hhigh, hlt⟩ := findMemoryInfo_eq hinfo
    rw [hinfo] at h
    simp only [bind, Except.bind, hlow, hhigh] at h
    refine ⟨hlt, ?_⟩
    by_cases hw : memDescType m &&& memoryType ≠ 0
    · rw [if_pos hw] at h
      refine .inl ⟨hw, ?_⟩
      split at h
      · exact nomatch h
      · split at h
        · rename_i hmerge
          rw [hmerge]
          exact Except.ok.inj h
        · rename_i hmerge
          rw [hmerge]
          exact Except.ok.inj h
    · rw [if_neg hw] at h
      have hw' := not_not.mp hw
      by_cases hx : memDescType m &&& exceptType ≠ 0
      · rw [if_pos hx] at h
        exact .inr (.inl ⟨hw', hx, h⟩)
      · rw [if_neg hx] at h
        exact .inr (.inr ⟨hw', not_not.mp hx, (Except.ok.inj h).symm⟩)

/-- The branches of the inner loop. -/
inductive Merged (low high : Nat) (r : Region) : Region → Prop
  | top : low ≥ r.base → low < r.end_ → high ≥ r.end_ → Merged low high r ⟨r.base, high⟩
  | bottom : ¬ (low ≥ r.base ∧ high ≥ r.end_) → low ≤ r.base → high ≤ r.end_ → high > r.base →
      Merged low high r ⟨wordAdd high 1, r.end_⟩
  | inside : low > r.base → low < r.end_ → high < r.end_ → high > r.base → Merged low high r r

theorem mergeLoop_some (h : mergeLoop low high rs = some rs') :
    ∃ l r r' t, rs = l ++ r :: t ∧ rs' = l ++ r' :: t ∧ Merged low high r r' := by
  induction rs generalizing rs' with
  | nil => exact nomatch h
  | cons r rest ih =>
    rw [mergeLoop] at h
    split at h
    · rename_i htop
      exact ⟨[], r, _, rest, rfl, (Option.some.inj h).symm, .top htop.1 htop.2.1 htop.2.2⟩
    split at h
    · rename_i htop hbottom
      exact ⟨[], r, _, rest, rfl, (Option.some.inj h).symm,
        .bottom (by omega) hbottom.1 hbottom.2.1 hbottom.2.2⟩
    split at h
    · rename_i hin
      exact ⟨[], r, _, rest, rfl, (Option.some.inj h).symm,
        .inside hin.1 hin.2.1 hin.2.2.1 hin.2.2.2⟩
    · cases hrest : mergeLoop low high rest with
      | none =>
        rw [hrest] at h
        exact nomatch h
      | some rest' =>
        rw [hrest] at h
        obtain ⟨l, r₀, r', t, rfl, rfl, hm⟩ := ih hrest
        exact ⟨r :: l, r₀, r', t, rfl, (Option.some.inj h).symm, hm⟩

theorem mergeLoop_none (h : mergeLoop low high rs = none) :
    ∀ r ∈ rs, ∀ r', ¬ Merged low high r r' := by
  induction rs with
  | nil => exact fun r hr => absurd hr List.not_mem_nil
  | cons q rest ih =>
    rw [mergeLoop] at h
    split at h
    · exact nomatch h
    split at h
    · exact nomatch h
    split at h
    · exact nomatch h
    · rename_i htop hbottom hin
      have hrest := Option.map_eq_none_iff.mp h
      intro r hr r' hm
      rcases List.mem_cons.mp hr with rfl | hr
      · cases hm <;> omega
      · exact ih hrest r hr r' hm

theorem Merged.meets (h : Merged low high r r') (hlt : low < high) : r.Meets low high := by
  rw [Region.Meets]
  cases h <;> omega

/-- Two grains of one region. -/
theorem Region.Grained.lt (h : r.Grained descGrain) (hle : r.base ≤ r.end_) : r.base < r.end_ := by
  have hb := h.base
  have he := h.end_
  rw [descGrain] at hb he
  omega

theorem not_meets_of_apart (hq : r.base ≤ r.end_) (hlt : low < high) (h : Apart r ⟨low, high⟩) :
    ¬ r.Meets low high := by
  intro hm
  rw [Region.Meets] at hm
  refine h (Max.max low r.base) ?_
  simp only
  omega

theorem apart_of_not_meets (h : ¬ r.Meets low high) : Apart r ⟨low, high⟩ := by
  rw [Region.Meets] at h
  intro x hx
  simp only at hx
  omega

/-- Only one of the regions can meet what is inside one of them. -/
theorem Tidy.others (h : Tidy (l ++ r :: t)) (hlt : low < high) (hbase : r.base ≤ low)
    (hq : ∀ q ∈ l ++ t, Apart ⟨r.base, high⟩ q) :
    ∀ q ∈ l ++ r :: t, q.Meets low high → q = r := by
  intro q hmem hmeets
  have hmem' : q = r ∨ q ∈ l ++ t := by
    simpa [or_left_comm] using hmem
  refine hmem'.elim id fun hother => absurd hmeets ?_
  refine not_meets_of_apart (h.proper q hmem) hlt ?_
  refine fun x hx => hq q hother x ?_
  simp only at hx ⊢
  omega

/-- A region that the loop has made right was to be merged with. -/
theorem mergeable_of_mapped (h : Tidy rs) (hlt : low < high) (hhigh : high < wordSize)
    (hm : Mapped ((mergeLoop low high rs).getD (rs ++ [⟨low, high⟩]))
      fun x => Covered x rs ∨ (low ≤ x ∧ x ≤ high)) : Mergeable low high rs := by
  cases hloop : mergeLoop low high rs with
  | none =>
    rw [hloop] at hm
    refine .inl fun r hr => not_meets_of_apart (h.proper r hr) hlt ?_
    exact (List.pairwise_append.mp hm.apart).2.2 r hr _ List.mem_cons_self
  | some rs' =>
    obtain ⟨l, r, r', t, rfl, rfl, hmerged⟩ := mergeLoop_some hloop
    rw [hloop, Option.getD_some] at hm
    have hmem : r ∈ l ++ r :: t := by simp
    have hnew := (apart_middle.mp hm.apart).1
    have hold := (apart_middle.mp h.apart).1
    have hmeets := hmerged.meets hlt
    cases hmerged with
    | top hbase hend hover =>
      exact .inr (.inl ⟨r, hmem, hmeets, ⟨hbase, .inl hover⟩, h.others hlt hbase hnew⟩)
    | inside hbase hend hin _ =>
      refine .inr (.inl ⟨r, hmem, hmeets, ⟨hbase.le, .inr hbase⟩, h.others hlt hbase.le ?_⟩)
      exact fun q hq x hx => hnew q hq x ⟨⟨hx.1.1, hx.1.2.trans hin.le⟩, hx.2⟩
    | bottom hnot hbase hend hin =>
      have hr := (h.grained r hmem).word
      rw [Region.Word] at hr
      by_cases hwrap : high + 1 < wordSize
      · -- the first address of the region is lost
        have hlost := (hm.covered r.base).mpr (.inl (covered_middle.mpr (.inl ⟨le_refl _, h.proper r hmem⟩)))
        rw [covered_middle, wordAdd, Nat.mod_eq_of_lt hwrap] at hlost
        rcases hlost with hlost | ⟨q, hq, hqx⟩
        · simp only at hlost
          omega
        · exact absurd ⟨⟨le_refl _, h.proper r hmem⟩, hqx⟩ (hold q hq r.base)
      · have hz : wordAdd high 1 = 0 := by
          rw [wordAdd, show high + 1 = wordSize by omega, Nat.mod_self]
        rw [hz] at hm hnew
        have hnone : l ++ t = [] := by
          refine List.eq_nil_iff_forall_not_mem.mpr fun q hq => ?_
          have hqmem : q ∈ l ++ r :: t := by
            simp only [List.mem_append, List.mem_cons] at hq ⊢
            tauto
          have hqw := (h.grained q hqmem).word
          rw [Region.Word] at hqw
          have hqp := h.proper q hqmem
          refine hnew q hq q.base ⟨⟨Nat.zero_le _, ?_⟩, le_refl _, hqp⟩
          simp only
          omega
        obtain ⟨rfl, rfl⟩ := List.append_eq_nil_iff.mp hnone
        have hall := (hm.covered 0).mp (covered_middle.mpr (.inl ⟨le_refl _, Nat.zero_le _⟩))
        simp only [List.nil_append, covered_cons, covered_nil, or_false] at hall
        refine .inr (.inr ⟨rfl, by omega, by omega, fun q hq => ?_⟩)
        rw [List.nil_append, List.mem_singleton] at hq
        rw [hq]
        omega

/-- A region that takes the new one, and is the only one to meet it. -/
theorem Merged.mapped (h : Tidy (l ++ r :: t)) (htakes : r.Takes low high)
    (honly : ∀ q ∈ l ++ r :: t, q.Meets low high → q = r) (hmerged : Merged low high r r') :
    Mapped (l ++ r' :: t) (fun x => Covered x (l ++ r :: t) ∨ (low ≤ x ∧ x ≤ high)) ∧
      r'.base ≤ r'.end_ := by
  have hmem : r ∈ l ++ r :: t := by simp
  have hproper := h.proper r hmem
  obtain ⟨hold, hothers⟩ := apart_middle.mp h.apart
  rw [Region.Takes] at htakes
  cases hmerged with
  | top hbase hend hover =>
    refine ⟨⟨apart_middle.mpr ⟨fun q hq x hx => ?_, hothers⟩, fun x => ?_⟩, by simp only; omega⟩
    · simp only at hx
      by_cases hin : x ≤ r.end_
      · exact hold q hq x ⟨⟨hx.1.1, hin⟩, hx.2⟩
      · have hqmem : q ∈ l ++ r :: t := by
          simp only [List.mem_append, List.mem_cons] at hq ⊢
          tauto
        have hqr := honly q hqmem ⟨hx.2.1.trans hx.1.2, by omega⟩
        rw [hqr] at hx
        omega
    · rw [covered_middle, covered_middle]
      simp only
      by_cases hc : Covered x (l ++ t)
      · simp [hc]
      · simp only [hc, or_false]
        omega
  | bottom hnot hbase hend hin => omega
  | inside hbase hend hin _ =>
    refine ⟨⟨h.apart, fun x => ?_⟩, hproper⟩
    refine ⟨.inl, fun hx => hx.elim id fun hx => ?_⟩
    exact covered_middle.mpr (.inl ⟨by omega, by omega⟩)

/-- The loop is right about what is to be merged. -/
theorem mapped_of_mergeable (h : Tidy rs) (hlt : low < high) (hlow : low % descGrain = 0)
    (hm : Mergeable low high rs) :
    Mapped ((mergeLoop low high rs).getD (rs ++ [⟨low, high⟩]))
      (fun x => Covered x rs ∨ (low ≤ x ∧ x ≤ high)) ∧
    ∀ r ∈ (mergeLoop low high rs).getD (rs ++ [⟨low, high⟩]), r.base ≤ r.end_ := by
  rcases hm with hnone | ⟨r, hr, hmeets, htakes, honly⟩ | ⟨hone, rfl, rfl, hall⟩
  · have hloop : mergeLoop low high rs = none := by
      cases hloop : mergeLoop low high rs with
      | none => rfl
      | some rs' =>
        obtain ⟨l, r, r', t, rfl, rfl, hmerged⟩ := mergeLoop_some hloop
        exact absurd (hmerged.meets hlt) (hnone r (by simp))
    rw [hloop, Option.getD_none]
    refine ⟨⟨List.pairwise_append.mpr ⟨h.apart, List.pairwise_singleton _ _, fun r hr q hq => ?_⟩,
      fun x => by simp⟩, fun r hr => ?_⟩
    · rw [List.mem_singleton.mp hq]
      exact apart_of_not_meets (hnone r hr)
    · rcases List.mem_append.mp hr with hr | hr
      · exact h.proper r hr
      · rw [List.mem_singleton.mp hr]
        exact hlt.le
  · have hend : low < r.end_ := by
      have he := (h.grained r hr).end_
      rw [Region.Meets] at hmeets
      rw [descGrain] at he hlow
      omega
    cases hloop : mergeLoop low high rs with
    | none =>
      have hno := mergeLoop_none hloop r hr
      rw [Region.Takes] at htakes
      by_cases hover : high ≥ r.end_
      · exact absurd (.top htakes.1 hend hover) (hno _)
      · exact absurd (.inside (by omega) hend (by omega) (by omega)) (hno _)
    | some rs' =>
      obtain ⟨l, q, r', t, rfl, rfl, hmerged⟩ := mergeLoop_some hloop
      obtain rfl : q = r := honly q (by simp) (hmerged.meets hlt)
      obtain ⟨hmapped, hproper⟩ := hmerged.mapped h htakes honly
      refine ⟨hmapped, fun p hp => ?_⟩
      rcases (List.mem_append.mp hp).imp_right List.mem_cons.mp with hp | rfl | hp
      · exact h.proper p (List.mem_append_left _ hp)
      · exact hproper
      · exact h.proper p (List.mem_append_right _ (List.mem_cons_of_mem _ hp))
  · obtain ⟨r, rfl⟩ := List.length_eq_one_iff.mp hone
    obtain ⟨hpos, hend⟩ := hall r List.mem_cons_self
    have hbase := (h.grained r List.mem_cons_self).lt (h.proper r List.mem_cons_self)
    have hloop : mergeLoop 0 (wordSize - 1) [r] = some [⟨0, wordSize - 1⟩] := by
      rw [mergeLoop, if_neg (by omega), if_pos (by omega), hend]
      rfl
    rw [hloop, Option.getD_some]
    have hle : r.base ≤ wordSize - 1 := by omega
    refine ⟨⟨List.pairwise_singleton _ _, fun x => ?_⟩, fun q hq => ?_⟩
    · simp only [covered_cons, covered_nil, or_false, hend]
      omega
    · rw [List.mem_singleton.mp hq]
      exact Nat.zero_le _

/-- What is taken out of disjoint regions leaves disjoint regions. -/
theorem Tidy.cut (h : Tidy rs) (hlt : low < high) :
    (rs.flatMap (cut low high)).Pairwise Apart ∧
      ∀ r ∈ rs.flatMap (Boot.cut low high), r.base ≤ r.end_ := by
  have hpart : ∀ r : Region, r.base ≤ r.end_ → ∀ q ∈ Boot.cut low high r,
      r.base ≤ q.base ∧ q.base ≤ q.end_ ∧ q.end_ ≤ r.end_ := by
    intro r hr q hq
    rw [Boot.cut] at hq
    split at hq
    · exact absurd hq List.not_mem_nil
    split at hq
    · rw [List.mem_singleton.mp hq]
      simp only
      omega
    split at hq
    · rw [List.mem_singleton.mp hq]
      simp only
      omega
    split at hq
    · simp only [List.mem_cons, List.not_mem_nil, or_false] at hq
      rcases hq with rfl | rfl
      · simp only
        omega
      · simp only
        omega
    · rw [List.mem_singleton.mp hq]
      omega
  refine ⟨List.pairwise_flatMap.mpr ⟨fun r hr => ?_, ?_⟩, fun q hq => ?_⟩
  · rw [Boot.cut]
    split
    · exact .nil
    split
    · exact List.pairwise_singleton _ _
    split
    · exact List.pairwise_singleton _ _
    split
    · refine List.pairwise_pair.mpr fun x hx => ?_
      simp only at hx
      omega
    · exact List.pairwise_singleton _ _
  · refine h.apart.imp_of_mem fun hr hr' hapart q hq q' hq' x hx => hapart x ?_
    have := hpart _ (h.proper _ hr) q hq
    have := hpart _ (h.proper _ hr') q' hq'
    omega
  · obtain ⟨r, hr, hq⟩ := List.mem_flatMap.mp hq
    exact (hpart r (h.proper r hr) q hq).2.1

theorem MemoryDesc.grain (m : MemoryDesc) : l4MemoryDescLow m % descGrain = 0 ∧
    (l4MemoryDescHigh m + 1) % descGrain = 0 ∧ l4MemoryDescLow m < wordSize ∧
      l4MemoryDescHigh m < wordSize := by
  have hlow := m.low_lt
  have hhigh := m.high_lt
  rw [l4MemoryDescLow, l4MemoryDescHigh, descGrain, wordSize]
  omega

/-- Regions are made of whole grains, whatever the descriptors. -/
theorem findStep_grained (h : ∀ r ∈ rs, r.Grained descGrain)
    (hs : findStep max memoryType exceptType m rs = .ok rs') : ∀ r ∈ rs', r.Grained descGrain := by
  obtain ⟨hlow, hhigh, hlw, hhw⟩ := m.grain
  obtain ⟨-, ⟨-, rfl⟩ | ⟨-, -, hremove⟩ | ⟨-, -, rfl⟩⟩ := findStep_cases hs
  · cases hloop : mergeLoop (l4MemoryDescLow m) (l4MemoryDescHigh m) rs with
    | none =>
      intro r hr
      rcases List.mem_append.mp hr with hr | hr
      · exact h r hr
      · rw [List.mem_singleton.mp hr]
        exact ⟨hlow, hhigh, hlw, hhw⟩
    | some rs' =>
      obtain ⟨l, r, r', t, rfl, rfl, hmerged⟩ := mergeLoop_some hloop
      have hr := h r (by simp)
      have hr' : r'.Grained descGrain := by
        cases hmerged with
        | top => exact ⟨hr.base, hhigh, hr.word.1, hhw⟩
        | bottom =>
          refine ⟨?_, hr.end_, Nat.mod_lt _ (by decide), hr.word.2⟩
          rw [wordAdd, Nat.mod_mod_of_dvd _ (by decide)]
          exact hhigh
        | inside => exact hr
      intro q hq
      rcases (List.mem_append.mp hq).imp_right List.mem_cons.mp with hq | rfl | hq
      · exact h q (List.mem_append_left _ hq)
      · exact hr'
      · exact h q (List.mem_append_right _ (List.mem_cons_of_mem _ hq))
  · exact (removeChunk_spec (by decide) h hlow hhigh hlw hremove).2.1
  · exact h

/-- **One descriptor.**  A step from disjoint regions is right if and only if what it adds is mergeable,
    and then the regions are disjoint again. -/
theorem findStep_mapped (h : Tidy rs) (hs : findStep max memoryType exceptType m rs = .ok rs') :
    (Mapped rs' (describe memoryType exceptType (fun x => Covered x rs) m) ↔ DescOk memoryType m rs) ∧
      (DescOk memoryType m rs → Tidy rs') := by
  obtain ⟨hlow, hhigh, hlw, hhw⟩ := m.grain
  have hgrained := findStep_grained h.grained hs
  obtain ⟨hlt, ⟨hw, rfl⟩ | ⟨hw, hx, hremove⟩ | ⟨hw, hx, rfl⟩⟩ := findStep_cases hs
  · have hset : describe memoryType exceptType (fun x => Covered x rs) m =
        fun x => Covered x rs ∨ (l4MemoryDescLow m ≤ x ∧ x ≤ l4MemoryDescHigh m) := by
      funext x
      rw [describe, if_pos hw, MemoryDesc.Has]
    rw [hset]
    refine ⟨⟨fun hm _ => mergeable_of_mapped h hlt hhw hm, fun hok => ?_⟩, fun hok => ?_⟩
    · exact (mapped_of_mergeable h hlt hlow (hok hw)).1
    · obtain ⟨hmapped, hproper⟩ := mapped_of_mergeable h hlt hlow (hok hw)
      exact ⟨hgrained, hproper, hmapped.apart⟩
  · obtain ⟨rfl, -, hcovered⟩ := removeChunk_spec (by decide) h.grained hlow hhigh hlw hremove
    obtain ⟨hapart, hproper⟩ := h.cut hlt
    refine ⟨iff_of_true ⟨hapart, fun x => ?_⟩ fun hok => absurd hw hok, fun _ => ⟨hgrained, hproper, hapart⟩⟩
    rw [hcovered, describe, if_neg (not_not.mpr hw), if_pos hx, MemoryDesc.Has]
  · refine ⟨iff_of_true ⟨h.apart, fun x => ?_⟩ fun hok => absurd hw hok, fun _ => h⟩
    rw [describe, if_neg (not_not.mpr hw), if_neg (not_not.mpr hx)]

theorem Mapped.set_eq {S : Nat → Prop} (h : Mapped rs S) : S = fun x => Covered x rs :=
  funext fun x => propext (h.covered x).symm

theorem tidy_nil : Tidy [] := by
  refine ⟨fun r hr => absurd hr List.not_mem_nil, fun r hr => absurd hr List.not_mem_nil, .nil⟩

/-- **The memory map.**  The regions are disjoint and cover exactly what is described, after each of the
    descriptors, if and only if every descriptor that is added meets no region, or one alone that
    takes it. -/
theorem findMemoryRegion_mapped (max memoryType exceptType : Nat) (ms : List MemoryDesc)
    {rs : List Region} (h : findMemoryRegion max memoryType exceptType ms = .ok rs) :
    (∀ n rs', findMemoryRegion max memoryType exceptType (ms.take n) = .ok rs' →
        Mapped rs' (described memoryType exceptType (ms.take n))) ↔
      Along (findStep max memoryType exceptType) (DescOk memoryType) ms [] := by
  have hempty : Mapped [] fun _ => False := ⟨.nil, fun x => by simp⟩
  have hunique : ∀ (rs : List Region) (S S' : Nat → Prop), Mapped rs S → Mapped rs S' → S = S' :=
    fun rs S S' hS hS' => hS.set_eq.trans hS'.set_eq.symm
  refine (along_iff_forall_take (f := describe memoryType exceptType) hunique ms [] _ hempty).symm.trans ?_
  refine Along.congr (I := Tidy) (fun m rs htidy hlegal => ?_) (fun m rs rs' htidy hlegal hok hs => ?_) ms []
    tidy_nil (along_of_runs_ok h)
  · obtain ⟨rs', hs⟩ := hlegal
    refine ⟨fun hstep => ?_, fun hok S rs'' hS hs'' => ?_⟩
    · exact (findStep_mapped htidy hs).1.mp (hstep _ rs' ⟨htidy.apart, fun x => Iff.rfl⟩ hs)
    · rw [hS.set_eq]
      exact (findStep_mapped htidy hs'').1.mpr hok
  · exact (findStep_mapped htidy hs).2 hok

end

/-- Memory in two descriptors that overlap, with a hole for a device, and some above it. -/
def twoBanks : List MemoryDesc :=
  [⟨4, 15, 1, false, by decide, by decide⟩, ⟨12, 31, 1, false, by decide, by decide⟩,
    ⟨8, 8, 4, false, by decide, by decide⟩, ⟨64, 127, 1, false, by decide, by decide⟩,
    ⟨0, 255, 0, true, by decide, by decide⟩]

theorem twoBanks_mapped :
    findMemoryRegion 1024 memRam memIo twoBanks =
        .ok [⟨0x1000, 0x1fff⟩, ⟨0x2400, 0x7fff⟩, ⟨0x10000, 0x1ffff⟩] ∧
      ∀ n rs', findMemoryRegion 1024 memRam memIo (twoBanks.take n) = .ok rs' →
        Mapped rs' (described memRam memIo (twoBanks.take n)) := by
  have hrs : findMemoryRegion 1024 memRam memIo twoBanks =
      .ok [⟨0x1000, 0x1fff⟩, ⟨0x2400, 0x7fff⟩, ⟨0x10000, 0x1ffff⟩] := by decide +kernel
  exact ⟨hrs, (findMemoryRegion_mapped 1024 memRam memIo twoBanks hrs).mpr (by decide +kernel)⟩

/-- Memory that is added twice, over its beginning the second time. -/
def overlapBelow : List MemoryDesc := [⟨4, 7, 1, false, by decide, by decide⟩, ⟨0, 5, 1, false, by decide, by decide⟩]

/-- The second descriptor takes its memory off the region instead of adding to it. -/
theorem overlapBelow_not_mapped :
    ¬ ∀ (max memoryType exceptType : Nat) (ms : List MemoryDesc) (rs : List Region),
      findMemoryRegion max memoryType exceptType ms = .ok rs →
        Mapped rs (described memoryType exceptType ms) := by
  intro h
  have hrs : findMemoryRegion 1024 memRam memIo overlapBelow = .ok [⟨0x1800, 0x1fff⟩] := by decide
  have hcovered := (h 1024 memRam memIo overlapBelow _ hrs).covered 0
  simp [described, overlapBelow, describe, memDescType, MemoryDesc.Has, l4MemoryDescLow,
    l4MemoryDescHigh, memRam, l4ConventionalMemoryType] at hcovered

end FreeVMS.Boot
