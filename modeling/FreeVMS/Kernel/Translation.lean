import FreeVMS.Alloc.PhysicalMemory
import FreeVMS.Kernel.Back

/-!
# Where a memsection lies

`sys$fpage_alloc_list` finds the flexpages that back a memsection, `sys$memsection_back` maps them one
after the other, and `sys$memsection_lookup_phys` finds the memory of an address again.  Each of the two
walks keeps its own virtual address; that they agree rests on every flexpage of the list being aligned
to its size where it is mapped.
-/

namespace FreeVMS.Kernel

open Alloc Trace Cover Run Back Sections

/-- A flexpage that `sys$sigma0_map_fpage` is asked to map: where to, and what. -/
abbrev FpageMapping := Fpage × Fpage

/-- The loop of `sys$memsection_back`. -/
def backList : Nat → List Fpage → List FpageMapping
  | _, [] => []
  | addr, node :: list =>
      let vpage := l4Fpage addr (l4Size node)
      (vpage, node) :: backList (wordAdd addr (l4Size vpage)) list

/-- `sys$memsection_back`: the return value and the mappings that were made.  `direct` are those that
    `sys$sigma0_map` makes for memory that is mapped 1:1. -/
def memsectionBack (direct : List FpageMapping) (ms : Backing) : Int × List FpageMapping :=
  if has ms.flags (memUser ||| memUtcb) then (-1, [])
  else if has ms.flags memInternal then (0, direct)
  else (0, backList ms.base ms.phys)

/-- The flags of a memsection that is backed with a list. -/
def ListBacked (flags : Nat) : Prop := has flags (memUser ||| memUtcb) = false ∧ has flags memInternal = false

/-- Where each flexpage of the list should be mapped, and how much of it. -/
def layout : Nat → List Fpage → List (Nat × Nat × Fpage)
  | _, [] => []
  | virt, f :: l => (virt, l4Size f, f) :: layout (virt + l4Size f) l

/-- The mappings put `p` at address `a`. -/
def MapsTo (maps : List FpageMapping) (a p : Nat) : Prop :=
  ∃ m ∈ maps, m.1.Has a ∧ p = l4Address m.2 + (a - l4Address m.1)

section

variable {bits : Nat}

theorem memsectionBack_listed {direct : List FpageMapping} {ms : Backing} (h : ListBacked ms.flags) :
    memsectionBack direct ms = (0, backList ms.base ms.phys) := by
  rw [memsectionBack, h.1, h.2]
  rfl

variable (hb : PageBits bits)

include hb

/-- A flexpage at an address that is aligned to its size. -/
theorem l4Fpage_aligned {virt i b : Nat} {f : Fpage} (hf : Block bits i f b)
    (hal : virt % l4Size f = 0) :
    l4Address (l4Fpage virt (l4Size f)) = virt ∧ l4Size (l4Fpage virt (l4Size f)) = l4Size f := by
  have hge := hb.ge
  have hsmall := hf.small
  rw [hf.size hb] at hal ⊢
  have hlog : Nat.log2 (2 ^ (i + bits)) = i + bits := Nat.log2_two_pow
  have hpage : l4Fpage virt (2 ^ (i + bits)) = l4FpageLog2 virt (i + bits) := by
    rw [l4Fpage, hlog]
    simp
  rw [hpage, l4Size, l4SizeLog2_fpageLog2 (by omega) (by omega) hal, if_neg (by omega)]
  exact ⟨l4Address_fpageLog2 (by omega) (by omega) hal, rfl⟩

/-- **No rounding.**  `sys$memsection_back` maps each flexpage whole, where the ones before it end. -/
theorem backList_layout : ∀ (l : List Fpage) (virt : Nat), Blocks bits l → Aligned virt l →
    virt + weight l4Size l ≤ wordSize →
    (backList virt l).map (fun m => (l4Address m.1, l4Size m.1, m.2)) = layout virt l := by
  intro l
  induction l with
  | nil => exact fun _ _ _ _ => rfl
  | cons f l ih =>
    intro virt hblocks hal hle
    obtain ⟨i, b, hf⟩ := hblocks f List.mem_cons_self
    have hrest : Blocks bits l := fun g hg => hblocks g (List.mem_cons_of_mem _ hg)
    obtain ⟨haddr, hsize⟩ := l4Fpage_aligned hb hf hal.1
    rw [weight_cons] at hle
    rw [backList, List.map_cons, layout, haddr, hsize]
    congr 1
    rcases Nat.eq_or_lt_of_le (show virt + l4Size f ≤ wordSize by omega) with hend | hlt
    · -- the address wraps behind the last flexpage
      cases l with
      | nil => rfl
      | cons g l =>
        obtain ⟨k, c, hg⟩ := hrest g List.mem_cons_self
        have hpos : 0 < 2 ^ (k + bits) := by positivity
        rw [weight_cons, hg.size hb] at hle
        omega
    · rw [wordAdd, Nat.mod_eq_of_lt hlt]
      exact ih _ hrest hal.2 (by omega)

theorem mapsTo_cons {f : Fpage} {l : List Fpage} {virt i b a p : Nat} (hf : Block bits i f b)
    (hal : virt % l4Size f = 0) (hlt : virt + l4Size f < wordSize) :
    MapsTo (backList virt (f :: l)) a p ↔
      (virt ≤ a ∧ a < virt + l4Size f ∧ p = l4Address f + (a - virt)) ∨
        MapsTo (backList (virt + l4Size f) l) a p := by
  obtain ⟨haddr, hsize⟩ := l4Fpage_aligned hb hf hal
  rw [MapsTo, MapsTo, backList]
  simp only [List.exists_mem_cons_iff, Fpage.Has, haddr, hsize, and_assoc]
  rw [wordAdd, Nat.mod_eq_of_lt hlt]

/-- What is mapped lies at or above the address where the mapping begins. -/
theorem le_of_mapsTo : ∀ (l : List Fpage) (virt : Nat), Blocks bits l → Aligned virt l →
    virt + weight l4Size l < wordSize → ∀ a p, MapsTo (backList virt l) a p → virt ≤ a := by
  intro l
  induction l with
  | nil =>
    rintro virt - - - a p ⟨m, hm, -⟩
    exact absurd hm List.not_mem_nil
  | cons f l ih =>
    intro virt hblocks hal hlt a p h
    obtain ⟨i, b, hf⟩ := hblocks f List.mem_cons_self
    rw [weight_cons] at hlt
    rcases (mapsTo_cons hb hf hal.1 (by omega)).mp h with hhead | htail
    · exact hhead.1
    · have := ih _ (fun g hg => hblocks g (List.mem_cons_of_mem _ hg)) hal.2 (by omega) a p htail
      omega

/-- One step of the lookup. -/
theorem lookupPhys_cons {f : Fpage} {l : List Fpage} {virt i b a : Nat} (hf : Block bits i f b)
    (hle : virt ≤ a) (hlt : virt + l4Size f < wordSize) :
    lookupPhys a virt (f :: l) = if a < virt + l4Size f then .ok (l4Address f + (a - virt))
      else lookupPhys a (virt + l4Size f) l := by
  have hfits := hf.fits
  have haddr := hf.address hb
  have hsize := hf.size hb
  rw [lookupPhys, show wordAdd virt (l4Size f) = virt + l4Size f from Nat.mod_eq_of_lt hlt]
  by_cases hin : a < virt + l4Size f
  · have hphys : wordAdd (l4Address f) (wordSub a virt) = l4Address f + (a - virt) := by
      rw [wordSub_of_le hle (by omega) (by omega)]
      exact Nat.mod_eq_of_lt (by omega)
    rw [if_pos ⟨hle, hin⟩, if_pos hin, hphys]
  · rw [if_neg fun h => hin h.2, if_neg hin]

/-- **Two walks.**  The lookup finds an address where it was mapped, and it was mapped there only. -/
theorem lookupPhys_mapsTo : ∀ (l : List Fpage) (virt : Nat), Blocks bits l → Aligned virt l →
    virt + weight l4Size l < wordSize → ∀ a, virt ≤ a → a < virt + weight l4Size l →
    ∃ p, lookupPhys a virt l = .ok p ∧ (∃ f ∈ l, f.Has p) ∧
      ∀ p', MapsTo (backList virt l) a p' ↔ p' = p := by
  intro l
  induction l with
  | nil =>
    intro virt _ _ _ a hle hlt
    rw [weight_nil] at hlt
    omega
  | cons f l ih =>
    intro virt hblocks hal hword a hle hlt
    obtain ⟨i, b, hf⟩ := hblocks f List.mem_cons_self
    have hrest : Blocks bits l := fun g hg => hblocks g (List.mem_cons_of_mem _ hg)
    rw [weight_cons] at hword hlt
    have hmaps := fun p' => mapsTo_cons hb (l := l) (a := a) (p := p') hf hal.1 (by omega)
    rw [lookupPhys_cons hb hf hle (by omega)]
    by_cases hin : a < virt + l4Size f
    · rw [if_pos hin]
      refine ⟨_, rfl, ⟨f, List.mem_cons_self, by omega, by omega⟩, fun p' => (hmaps p').trans ?_⟩
      constructor
      · rintro (⟨-, -, rfl⟩ | htail)
        · rfl
        · have := le_of_mapsTo hb l _ hrest hal.2 (by omega) a p' htail
          omega
      · rintro rfl
        exact .inl ⟨hle, hin, rfl⟩
    · rw [if_neg hin]
      obtain ⟨p, hp, ⟨g, hg, hhas⟩, huniq⟩ :=
        ih _ hrest hal.2 (by omega) a (Nat.le_of_not_lt hin) (by omega)
      refine ⟨p, hp, ⟨g, List.mem_cons_of_mem _ hg, hhas⟩, fun p' => (hmaps p').trans ?_⟩
      rw [huniq]
      constructor
      · rintro (⟨-, hno, -⟩ | h)
        · exact absurd hno hin
        · exact h
      · exact .inr

/-- **Injective.**  Flexpages that are distinct hold different addresses. -/
theorem lookupPhys_injective : ∀ (l : List Fpage) (virt : Nat), Blocks bits l → Aligned virt l →
    Distinct l → virt + weight l4Size l < wordSize → ∀ a a', virt ≤ a → a < virt + weight l4Size l →
    virt ≤ a' → a' < virt + weight l4Size l → lookupPhys a virt l = lookupPhys a' virt l → a = a' := by
  intro l
  induction l with
  | nil =>
    intro virt _ _ _ _ a a' hle hlt
    rw [weight_nil] at hlt
    omega
  | cons f l ih =>
    intro virt hblocks hal hdis hword a a' hle hlt hle' hlt' h
    obtain ⟨i, b, hf⟩ := hblocks f List.mem_cons_self
    obtain ⟨hfirst, hdis'⟩ := List.pairwise_cons.mp hdis
    have hrest : Blocks bits l := fun g hg => hblocks g (List.mem_cons_of_mem _ hg)
    rw [weight_cons] at hword hlt hlt'
    -- an address of the first flexpage has other memory than one of the rest
    have hcross : ∀ c d, virt ≤ c → c < virt + l4Size f → virt + l4Size f ≤ d →
        d < virt + (l4Size f + weight l4Size l) →
        lookupPhys d (virt + l4Size f) l ≠ .ok (l4Address f + (c - virt)) := by
      intro c d hc hc' hd hd' heq
      obtain ⟨p, hp, ⟨g, hg, hhas⟩, -⟩ :=
        lookupPhys_mapsTo hb l _ hrest hal.2 (by omega) d hd (by omega)
      obtain rfl := Except.ok.inj (hp.symm.trans heq)
      exact hfirst g hg _ ⟨⟨by omega, by omega⟩, hhas⟩
    rw [lookupPhys_cons hb hf hle (by omega), lookupPhys_cons hb hf hle' (by omega)] at h
    by_cases hin : a < virt + l4Size f
    · rw [if_pos hin] at h
      by_cases hin' : a' < virt + l4Size f
      · rw [if_pos hin'] at h
        have := Except.ok.inj h
        omega
      · rw [if_neg hin'] at h
        exact absurd h.symm (hcross a a' hle hin (by omega) (by omega))
    · rw [if_neg hin] at h
      by_cases hin' : a' < virt + l4Size f
      · rw [if_pos hin'] at h
        exact absurd h (hcross a' a hle' hin' (by omega) (by omega))
      · rw [if_neg hin'] at h
        exact ih _ hrest hal.2 hdis' (by omega) a a' (by omega) (by omega) (by omega) (by omega) h

/-- At the end of the address space the last flexpage is not recognized. -/
theorem lookupPhys_last : ∀ (l : List Fpage) (virt : Nat), Blocks bits l →
    virt + weight l4Size l = wordSize →
    lookupPhys (wordSize - 1) virt l = .error .outOfBounds := by
  intro l
  induction l with
  | nil => exact fun _ _ _ => rfl
  | cons f l ih =>
    intro virt hblocks hend
    obtain ⟨i, b, hf⟩ := hblocks f List.mem_cons_self
    rw [weight_cons] at hend
    rw [lookupPhys]
    rcases Nat.eq_or_lt_of_le (show virt + l4Size f ≤ wordSize by omega) with hwrap | hlt
    · rw [wordAdd, hwrap, Nat.mod_self, if_neg fun h => Nat.not_lt_zero _ h.2]
      cases l with
      | nil => rfl
      | cons g l =>
        obtain ⟨k, c, hg⟩ := hblocks g (List.mem_cons_of_mem _ List.mem_cons_self)
        have hpos : 0 < 2 ^ (k + bits) := by positivity
        rw [weight_cons, hg.size hb] at hend
        omega
    · rw [wordAdd, Nat.mod_eq_of_lt hlt, if_neg fun h => by omega]
      exact ih _ (fun g hg => hblocks g (List.mem_cons_of_mem _ hg)) (by omega)

end

/-! ### What is backed -/

/-- What `sys$fpage_alloc_list` should return for `[base, end_]`: nothing, and then what is free is what
    was; or distinct flexpages that were free, as much as the range is long, each of which begins at a
    multiple of its size, so that `sys$memsection_back` maps it there. -/
structure ListRight (base end_ : Nat) (a a' : FpageAlloc) (l : List Fpage) : Prop where
  unchanged : l = [] → ∀ x, own a' x = own a x
  distinct : Distinct l
  free : ∀ f ∈ l, ∀ x, f.Has x → own a x = 1
  sizes : l ≠ [] → (l.map l4Size).sum = end_ - base + 1
  aligned : ∀ front f rest, l = front ++ f :: rest →
    0 < l4Size f ∧ (base + (front.map l4Size).sum) % l4Size f = 0
  mapped : ∀ direct flags, ListBacked flags →
    (memsectionBack direct ⟨base, end_, flags, l⟩).1 = 0 ∧
      (memsectionBack direct ⟨base, end_, flags, l⟩).2.map (fun m => (l4Address m.1, l4Size m.1, m.2)) =
        layout base l

/-- What a memsection that is backed should be: the lookup finds every address, where it is mapped and
    nowhere else, and no two addresses in one place. -/
structure TranslationRight (direct : List FpageMapping) (ms : Backing) : Prop where
  agree : ∀ a, ms.base ≤ a → a ≤ ms.end_ → ∃ p, memsectionLookupPhys ms a = .ok p ∧
    ∀ p', MapsTo (memsectionBack direct ms).2 a p' ↔ p' = p
  injective : ∀ a a', ms.base ≤ a → a ≤ ms.end_ → ms.base ≤ a' → a' ≤ ms.end_ →
    memsectionLookupPhys ms a = memsectionLookupPhys ms a' → a = a'

section

variable {bits base end_ : Nat} (hb : PageBits bits)

include hb

theorem listRight_of_backed {a a' : FpageAlloc} {l : List Fpage} (h : Backed bits base end_ a a' l)
    (hword : end_ < wordSize) : ListRight base end_ a a' l := by
  have hbacks : ∀ f ∈ l, Backs base end_ l := fun f hf => h.backs (List.ne_nil_of_mem hf)
  have hpos : ∀ f ∈ l, 0 < l4Size f := by
    intro f hf
    obtain ⟨i, b, hblock⟩ := h.blocks f hf
    rw [hblock.size hb]
    positivity
  exact {
    unchanged := h.gaveUp
    distinct := h.distinct
    free := h.free
    sizes := fun hne => by
      obtain ⟨f, rest, rfl⟩ := List.exists_cons_of_ne_nil hne
      have hsum := (h.backs hne).sizes
      have hsize := hpos f List.mem_cons_self
      rw [weight_cons] at hsum
      show l4Size f + weight l4Size rest = end_ - base + 1
      omega
    aligned := by
      rintro front f rest rfl
      have hf : f ∈ front ++ f :: rest := List.mem_append_right _ List.mem_cons_self
      exact ⟨hpos f hf, (hbacks f hf).aligned.split⟩
    mapped := fun direct flags hflags => by
      rw [@memsectionBack_listed direct ⟨base, end_, flags, l⟩ hflags]
      refine ⟨rfl, ?_⟩
      cases l with
      | nil => rfl
      | cons f rest =>
        have hall := hbacks f List.mem_cons_self
        exact backList_layout hb _ _ h.blocks hall.aligned (by rw [hall.sizes]; exact hword) }

/-- **Backing.**  In every state of `pm_alloc`, `sys$fpage_alloc_list` returns and does what it should for
    every range of whole pages. -/
theorem runs_allocList_right (calls : List Call)
    (h : Along (perform bits) (Call.Physical bits) calls Ledger.empty) :
    Ends (fun _ => True) (fun L => ∀ answers : Nat → Bool, (∀ k, answers k = true) →
      ∀ base end_, PageRange bits base end_ → ∃ l,
        (fpageAllocList quietEnv bits base end_ (2 ^ bits) ⟨L.alloc, answers⟩).result = .ok l ∧
        ListRight base end_ L.alloc
          (fpageAllocList quietEnv bits base end_ (2 ^ bits) ⟨L.alloc, answers⟩).state.alloc l)
      (runs (perform bits) calls Ledger.empty) := by
  refine (runs_physical hb calls h).mono fun L hC answers hserved base end_ hr => ?_
  obtain ⟨l, hl, hbacked⟩ := hC.allocList hb hserved hr
  exact ⟨l, hl, listRight_of_backed hb hbacked hr.end_word⟩

theorem translationRight_of_backed {a a' : FpageAlloc} {direct : List FpageMapping} {ms : Backing}
    (h : Backed bits ms.base ms.end_ a a' ms.phys) (hflags : ListBacked ms.flags) (hne : ms.phys ≠ [])
    (hend : ms.end_ + 1 < wordSize) : TranslationRight direct ms := by
  obtain ⟨hsizes, hal⟩ := h.backs hne
  rw [← hsizes] at hend
  constructor
  case agree =>
    intro x hle hlt
    obtain ⟨p, hp, -, hmaps⟩ := lookupPhys_mapsTo hb _ _ h.blocks hal hend x hle (by omega)
    rw [memsectionBack_listed hflags]
    exact ⟨p, hp, hmaps⟩
  case injective =>
    intro x y hx hx' hy hy' heq
    exact lookupPhys_injective hb _ _ h.blocks hal h.distinct hend x y hx (by omega) hy (by omega) heq

end

theorem stocked_physical : Along (perform 12) (Call.Physical 12) stocked Ledger.empty :=
  ⟨⟨⟨fun _ => rfl, rfl, stocked_steady.1.legal⟩, trivial⟩, fun _ _ => trivial⟩

theorem stocked_allocList_right : fault (runs (perform 12) stocked Ledger.empty) = none ∧
    Ends (fun _ => True) (fun L => ∀ answers : Nat → Bool, (∀ k, answers k = true) →
      ∀ base end_, PageRange 12 base end_ → ∃ l,
        (fpageAllocList quietEnv 12 base end_ (2 ^ 12) ⟨L.alloc, answers⟩).result = .ok l ∧
        ListRight base end_ L.alloc
          (fpageAllocList quietEnv 12 base end_ (2 ^ 12) ⟨L.alloc, answers⟩).state.alloc l)
      (runs (perform 12) stocked Ledger.empty) := by
  have hbits : PageBits 12 := ⟨by decide, by decide⟩
  constructor
  · decide +kernel
  · exact runs_allocList_right hbits stocked stocked_physical

end FreeVMS.Kernel
