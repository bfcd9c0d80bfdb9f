import FreeVMS.Boot.MemMap
import FreeVMS.Kernel.Reentry

/-!
# Handing over the memory

The loops of `sys$bootstrap` that give the free memory to the allocators.  A first range of virtual
memory and one of physical memory let the slab caches begin; the regions they come from are marked
by an end that is their base.  Then the rest of the physical memory is freed, and the rest of the
virtual memory.

Regions are rounded to whole pages, but for the last loop.  A region without a whole page gives a
range whose end is below its base.
-/

namespace FreeVMS.Boot

open Trace Cover Alloc Kernel

/-- The bounds of the whole pages of a region, as the loops compute them. -/
def innerBase (pagesize : Nat) (r : Region) : Nat := pageRoundUp r.base pagesize

def innerEnd (pagesize : Nat) (r : Region) : Nat :=
  wordSub (pageRoundDown (wordAdd r.end_ 1) pagesize) 1

/-- The test of the first loop, over the virtual regions. -/
def vmEnough (pagesize : Nat) (r : Region) : Prop :=
  wordSub (innerEnd pagesize r) (wordAdd (innerBase pagesize r) 1) ≥ 2 * pagesize

/-- The test of the second loop, over the physical regions. -/
def pmEnough (pagesize : Nat) (r : Region) : Prop :=
  wordAdd (wordSub (innerEnd pagesize r) (innerBase pagesize r)) 1 ≥ 2 * pagesize

instance (pagesize : Nat) : DecidablePred (vmEnough pagesize) :=
  fun _ => inferInstanceAs (Decidable (_ ≥ _))

instance (pagesize : Nat) : DecidablePred (pmEnough pagesize) :=
  fun _ => inferInstanceAs (Decidable (_ ≥ _))

/-- The first region that passes the test; where it is, and the regions with this one marked. -/
def consume (test : Region → Prop) [DecidablePred test] : List Region → Option (Region × Nat × List Region)
  | [] => none
  | r :: rest =>
      if test r then some (r, 0, ⟨r.base, r.base⟩ :: rest)
      else (consume test rest).map fun c => (c.1, c.2.1 + 1, r :: c.2.2)

/-- The ranges that the allocators begin with. -/
structure FirstRanges where
  vm : Option (Nat × Nat)
  pm : Nat × Nat
deriving DecidableEq

section

variable (bits : Nat)

/-- The loop that frees the rest of the physical memory. -/
def freePhysical : List Region → Prog Event Sys Fault Unit
  | [] => return ()
  | r :: rest => do
      if r.base = r.end_ then freePhysical rest
      else
        onlyIf (innerBase (2 ^ bits) r < innerEnd (2 ^ bits) r)
          (fpageFreeChunk (linkedEnv bits .pm) bits (innerBase (2 ^ bits) r) (innerEnd (2 ^ bits) r))
        freePhysical rest

/-- The loop that frees the rest of the virtual memory. -/
def freeVirtual : List Region → Prog Event Sys Fault Unit
  | [] => return ()
  | r :: rest => do
      onlyIf (r.base < r.end_) (fpageFreeChunk (linkedEnv bits .vm) bits r.base r.end_)
      freeVirtual rest

/-- The first loop: the region it has taken and its place, which is the number of regions when it has
    taken none, and what is left. -/
def bootVirtual (vmRegions : List Region) :
    Prog Event Sys Fault (Option (Nat × Nat) × Nat × List Region) :=
  match consume (vmEnough (2 ^ bits)) vmRegions with
  | some (r, i, rest) => do
      fpageFreeInternal (linkedEnv bits .vm) bits (innerBase (2 ^ bits) r) (innerEnd (2 ^ bits) r)
      return (some (innerBase (2 ^ bits) r, innerEnd (2 ^ bits) r), i, rest)
  | none => return (none, vmRegions.length, vmRegions)

/-- The second loop. -/
def bootPhysical (regions : List Region) : Prog Event Sys Fault ((Nat × Nat) × List Region) :=
  match consume (pmEnough (2 ^ bits)) regions with
  | some (r, _, rest) => do
      fpageFreeChunk (linkedEnv bits .pm) bits (innerBase (2 ^ bits) r) (innerEnd (2 ^ bits) r)
      return ((innerBase (2 ^ bits) r, innerEnd (2 ^ bits) r), rest)
  | none => raise .panic

/-- The loops of `sys$bootstrap`. -/
def bootstrap (regions vmRegions : List Region) : Prog Event Sys Fault FirstRanges := do
  let (vm, i, vmRest) ← bootVirtual bits vmRegions
  -- the number of physical regions, not that of the virtual ones
  onlyIf (i ≥ regions.length) (raise .panic)
  let (pm, rest) ← bootPhysical bits regions
  freePhysical bits rest
  fpageClearInternal (linkedEnv bits .vm) bits
  freeVirtual bits vmRest
  return ⟨vm, pm⟩

end

/-! ### What is to be handed over -/

/-- The page of `x` is inside one of the regions. -/
def Interior (bits : Nat) (rs : List Region) (x : Nat) : Prop :=
  ∃ r ∈ rs, r.base ≤ x / 2 ^ bits * 2 ^ bits ∧ x / 2 ^ bits * 2 ^ bits + (2 ^ bits - 1) ≤ r.end_

/-- The range has two pages or more. -/
def TwoPages (bits : Nat) (range : Nat × Nat) : Prop :=
  range.1 ≤ range.2 ∧ 2 * 2 ^ bits ≤ range.2 + 1 - range.1

/-- All memory is handed over.  The account of an allocator is what is free in it and what the slab
    caches have taken from it meanwhile. -/
structure HandedOver (bits : Nat) (regions vmRegions : List Region) (first : FirstRanges) (s : Sys) :
    Prop where
  pm : ∀ x, 0 < account bits .pm s x ↔ Interior bits regions x
  once : ∀ x, account bits .pm s x ≤ 1
  vm : ∀ x, 0 < account bits .vm s x → Interior bits vmRegions x ∧
    ∀ y, y / 2 ^ bits = x / 2 ^ bits → 0 < account bits .vm s y
  firstPm : TwoPages bits first.pm
  firstVm : ∃ range, first.vm = some range ∧ TwoPages bits range

/-- The rounding of the region does not wrap, and the allocators can deal with what it gives: the region
    does not begin in the last page nor end with it, it does not end within the first page, and it
    does not begin at 0 and cover half of the address space. -/
structure Region.Roundable (bits : Nat) (r : Region) : Prop where
  base : r.base + 2 ^ bits ≤ wordSize
  low : 2 ^ bits ≤ r.end_ + 1
  high : r.end_ + 1 < wordSize
  half : r.base = 0 → r.end_ + 1 < 2 ^ 63

/-- The first virtual region and the first physical region that pass their tests have a whole page, and
    there are physical regions enough for the place of the virtual one. -/
structure FirstWhole (bits : Nat) (regions vmRegions : List Region) : Prop where
  vm : ∃ r i rest, consume (vmEnough (2 ^ bits)) vmRegions = some (r, i, rest) ∧
    innerBase (2 ^ bits) r < innerEnd (2 ^ bits) r ∧ i < regions.length
  pm : ∃ r i rest, consume (pmEnough (2 ^ bits)) regions = some (r, i, rest) ∧
    innerBase (2 ^ bits) r < innerEnd (2 ^ bits) r

/-- The regions can be rounded, and the virtual regions that the last loop frees, which it does not round,
    are whole pages. -/
structure Handable (bits : Nat) (regions vmRegions : List Region) : Prop where
  round : ∀ r ∈ regions, r.Roundable bits
  roundVm : ∀ r ∈ vmRegions, r.Roundable bits
  aligned : ∀ r i rest, consume (vmEnough (2 ^ bits)) vmRegions = some (r, i, rest) →
    ∀ q ∈ rest, q.base < q.end_ → q.base % 2 ^ bits = 0 ∧ (q.end_ + 1) % 2 ^ bits = 0

/-! ### Rounding -/

section

variable {bits x : Nat} {r : Region} {rs : List Region}

theorem Region.Roundable.innerBase_eq (h : r.Roundable bits) :
    innerBase (2 ^ bits) r = (r.base + (2 ^ bits - 1)) / 2 ^ bits * 2 ^ bits := by
  have hp : 0 < 2 ^ bits := Nat.two_pow_pos bits
  have hbase := h.base
  rw [innerBase, pageRoundUp, wordAdd, Nat.mod_eq_of_lt (by omega)]

theorem Region.Roundable.innerEnd_eq (h : r.Roundable bits) :
    innerEnd (2 ^ bits) r + 1 = (r.end_ + 1) / 2 ^ bits * 2 ^ bits := by
  have hp : 0 < 2 ^ bits := Nat.two_pow_pos bits
  have hhigh := h.high
  have hle := Nat.div_mul_le_self (r.end_ + 1) (2 ^ bits)
  have hpos : 0 < (r.end_ + 1) / 2 ^ bits * 2 ^ bits := Nat.mul_pos (Nat.div_pos h.low hp) hp
  rw [innerEnd, pageRoundDown, wordAdd, Nat.mod_eq_of_lt hhigh, wordSub_one hpos (by omega)]
  omega

/-- The rounded range is made of the pages inside the region. -/
theorem Region.Roundable.inner_iff (h : r.Roundable bits) :
    (innerBase (2 ^ bits) r ≤ x ∧ x ≤ innerEnd (2 ^ bits) r) ↔
      r.base ≤ x / 2 ^ bits * 2 ^ bits ∧ x / 2 ^ bits * 2 ^ bits + (2 ^ bits - 1) ≤ r.end_ := by
  have hp : 0 < 2 ^ bits := Nat.two_pow_pos bits
  have hend := h.innerEnd_eq
  have hlower : innerBase (2 ^ bits) r ≤ x ↔ r.base ≤ x / 2 ^ bits * 2 ^ bits := by
    rw [h.innerBase_eq, ← Nat.le_div_iff_mul_le hp, Nat.div_le_iff_le_mul_add_pred hp, Nat.mul_comm]
    omega
  have hupper : x ≤ innerEnd (2 ^ bits) r ↔ x / 2 ^ bits * 2 ^ bits + (2 ^ bits - 1) ≤ r.end_ := by
    rw [← Nat.lt_succ_iff, Nat.succ_eq_add_one, hend, ← Nat.div_lt_iff_lt_mul hp, ← Nat.succ_le_iff,
      Nat.le_div_iff_mul_le hp, Nat.succ_mul]
    omega
  exact and_congr hlower hupper

theorem Region.Roundable.span (h : r.Roundable bits) (hlt : innerBase (2 ^ bits) r < innerEnd (2 ^ bits) r) :
    Span bits (innerBase (2 ^ bits) r) (innerEnd (2 ^ bits) r) where
  base_aligned := by
    rw [h.innerBase_eq]
    exact Nat.mul_mod_left _ _
  end_aligned := by
    rw [h.innerEnd_eq]
    exact Nat.mul_mod_left _ _
  lt := hlt
  fits := by
    have hle := Nat.div_mul_le_self (r.end_ + 1) (2 ^ bits)
    have hend := h.innerEnd_eq
    have hhigh := h.high
    omega
  half hzero := by
    have hp : 0 < 2 ^ bits := Nat.two_pow_pos bits
    have hle := Nat.div_mul_le_self (r.end_ + 1) (2 ^ bits)
    have hend := h.innerEnd_eq
    have hbase : r.base = 0 := by
      have := (h.inner_iff (x := 0)).mp ⟨by omega, Nat.zero_le _⟩
      simpa using this.1
    have hhalf := h.half hbase
    omega

/-- What the third loop frees of a region, at the address `x`. -/
def freedPart (bits : Nat) (x : Nat) (r : Region) : Nat :=
  if r.base = r.end_ then 0
  else if innerBase (2 ^ bits) r < innerEnd (2 ^ bits) r then
    Cover.span (innerBase (2 ^ bits) r) (innerEnd (2 ^ bits) r + 1 - innerBase (2 ^ bits) r) x
  else 0

theorem span_inner (hlt : innerBase (2 ^ bits) r < innerEnd (2 ^ bits) r) :
    Cover.span (innerBase (2 ^ bits) r) (innerEnd (2 ^ bits) r + 1 - innerBase (2 ^ bits) r) x = 1 ↔
      innerBase (2 ^ bits) r ≤ x ∧ x ≤ innerEnd (2 ^ bits) r := by
  rw [span_eq_one]
  omega

/-- A region with a whole page has more than one address. -/
theorem Region.Roundable.ne (h : r.Roundable bits) (hb : 0 < bits)
    (hlt : innerBase (2 ^ bits) r < innerEnd (2 ^ bits) r) : r.base ≠ r.end_ := by
  have hp : 1 < 2 ^ bits := Nat.one_lt_two_pow (by omega)
  have hin := (h.inner_iff (x := innerBase (2 ^ bits) r)).mp ⟨le_refl _, hlt.le⟩
  omega

theorem Region.Roundable.freedPart_eq (h : r.Roundable bits) (hb : 0 < bits) :
    freedPart bits x r = 1 ∧ Interior bits [r] x ∨ freedPart bits x r = 0 ∧ ¬ Interior bits [r] x := by
  have hp : 1 < 2 ^ bits := Nat.one_lt_two_pow (by omega)
  have hiff := h.inner_iff (x := x)
  have hint : Interior bits [r] x ↔ innerBase (2 ^ bits) r ≤ x ∧ x ≤ innerEnd (2 ^ bits) r := by
    rw [hiff]
    simp [Interior]
  rw [hint]
  by_cases hlt : innerBase (2 ^ bits) r < innerEnd (2 ^ bits) r
  · rw [freedPart, if_neg (h.ne hb hlt), if_pos hlt, span_inner hlt, span_eq_zero]
    by_cases hx : innerBase (2 ^ bits) r ≤ x ∧ x ≤ innerEnd (2 ^ bits) r
    · exact .inl ⟨hx, hx⟩
    · exact .inr ⟨by omega, hx⟩
  · refine .inr ⟨?_, fun hx => ?_⟩
    · rw [freedPart, if_neg hlt]
      split <;> rfl
    · have hbase : innerBase (2 ^ bits) r % 2 ^ bits = 0 := by
        rw [h.innerBase_eq]
        exact Nat.mul_mod_left _ _
      have hend : (innerEnd (2 ^ bits) r + 1) % 2 ^ bits = 0 := by
        rw [h.innerEnd_eq]
        exact Nat.mul_mod_left _ _
      have hgap := aligned_gap hbase hend (by omega)
      omega

/-- **The physical memory.**  Disjoint regions give each page inside one of them once. -/
theorem freedPart_pos (hb : 0 < bits) (hrs : ∀ r ∈ rs, r.Roundable bits) :
    0 < weight (freedPart bits x) rs ↔ Interior bits rs x := by
  induction rs with
  | nil => simp [Interior]
  | cons r rs ih =>
    have hrest := ih fun q hq => hrs q (List.mem_cons_of_mem _ hq)
    have hsplit : Interior bits (r :: rs) x ↔ Interior bits [r] x ∨ Interior bits rs x := by
      simp [Interior]
    rw [weight_cons, hsplit, ← hrest]
    rcases (hrs r List.mem_cons_self).freedPart_eq (x := x) hb with ⟨hone, hint⟩ | ⟨hzero, hint⟩
    · simp [hone, hint]
    · simp [hzero, hint]

theorem freedPart_le_one (hb : 0 < bits) (hrs : ∀ r ∈ rs, r.Roundable bits) (hapart : rs.Pairwise Apart) :
    weight (freedPart bits x) rs ≤ 1 := by
  induction rs with
  | nil => exact Nat.zero_le _
  | cons r rs ih =>
    obtain ⟨hhead, htail⟩ := List.pairwise_cons.mp hapart
    have hrest : ∀ q ∈ rs, q.Roundable bits := fun q hq => hrs q (List.mem_cons_of_mem _ hq)
    have hle := ih hrest htail
    rw [weight_cons]
    rcases (hrs r List.mem_cons_self).freedPart_eq (x := x) hb with ⟨hone, hint⟩ | ⟨hzero, -⟩
    · obtain ⟨r', hr', hbase, hend⟩ := hint
      obtain rfl := List.mem_singleton.mp hr'
      by_contra hmore
      obtain ⟨q, hq, hqbase, hqend⟩ := (freedPart_pos (x := x) hb hrest).mp (by omega)
      exact hhead q hq (x / 2 ^ bits * 2 ^ bits) (by omega)
    · omega

theorem consume_eq {test : Region → Prop} [DecidablePred test] {i : Nat} {rest : List Region}
    (h : consume test rs = some (r, i, rest)) :
    ∃ l t, rs = l ++ r :: t ∧ rest = l ++ ⟨r.base, r.base⟩ :: t ∧ test r := by
  induction rs generalizing i rest with
  | nil => exact nomatch h
  | cons q rs ih =>
    rw [consume] at h
    split at h
    · rename_i htest
      obtain ⟨rfl, hpair⟩ := Prod.mk.inj (Option.some.inj h)
      obtain ⟨-, rfl⟩ := Prod.mk.inj hpair
      exact ⟨[], rs, rfl, rfl, htest⟩
    · obtain ⟨⟨r', i', rest'⟩, hrest, heq⟩ := Option.map_eq_some_iff.mp h
      simp only [Prod.mk.injEq] at heq
      obtain ⟨rfl, -, rfl⟩ := heq
      obtain ⟨l, t, rfl, rfl, htest⟩ := ih hrest
      exact ⟨q :: l, t, rfl, rfl, htest⟩

/-- The regions that are not marked are the ones there were. -/
theorem consume_mem {test : Region → Prop} [DecidablePred test] {i : Nat} {rest : List Region} {q : Region}
    (h : consume test rs = some (r, i, rest)) (hq : q ∈ rest) (hne : q.base ≠ q.end_) : q ∈ rs := by
  obtain ⟨l, t, rfl, rfl, -⟩ := consume_eq h
  rw [List.mem_append, List.mem_cons] at hq ⊢
  rcases hq with hq | rfl | hq
  · exact .inl hq
  · exact absurd rfl hne
  · exact .inr (.inr hq)

/-- A range that passes the test of the first loop, when it is one at all. -/
theorem vmEnough.twoPages (h : vmEnough (2 ^ bits) r) (hspan : Span bits (innerBase (2 ^ bits) r)
    (innerEnd (2 ^ bits) r)) : TwoPages bits (innerBase (2 ^ bits) r, innerEnd (2 ^ bits) r) := by
  have hlt := hspan.lt
  have hfits := hspan.fits
  rw [vmEnough, wordAdd, Nat.mod_eq_of_lt (by omega), wordSub_of_le (by omega) (by omega) (by omega)] at h
  refine ⟨hlt.le, ?_⟩
  simp only
  omega

theorem pmEnough.twoPages (h : pmEnough (2 ^ bits) r) (hspan : Span bits (innerBase (2 ^ bits) r)
    (innerEnd (2 ^ bits) r)) : TwoPages bits (innerBase (2 ^ bits) r, innerEnd (2 ^ bits) r) := by
  have hlt := hspan.lt
  have hfits := hspan.fits
  rw [pmEnough, wordSub_of_le (by omega) (by omega) (by omega), wordAdd, Nat.mod_eq_of_lt (by omega)] at h
  refine ⟨hlt.le, ?_⟩
  simp only
  omega

end

/-! ### The loops -/

section

variable {bits : Nat} {s : Sys} {g : Side → Nat → Nat} {base end_ : Nat}

/-- The allocators are in order, and `g` is what they have been given. -/
def Given (bits : Nat) (g : Side → Nat → Nat) (s : Sys) : Prop :=
  SInv bits s ∧ ∀ w x, account bits w s x = g w x

/-- More memory for one side. -/
def give (w : Side) (d : Nat → Nat) (g : Side → Nat → Nat) (v : Side) (x : Nat) : Nat :=
  g v x + if v = w then d x else 0

variable (hb : PageBits bits) (h12 : 12 ≤ bits)

include hb h12

omit hb h12 in
theorem Given.of_beside {w : Side} {s' : Sys} {d : Nat → Nat} (h : Given bits g s) (hside : Beside bits w s s')
    (hinv : AInv bits (s'.side w)) (hacct : ∀ x, account bits w s' x = account bits w s x + d x) :
    Given bits (give w d g) s' := by
  refine ⟨hside.sinv hinv, (forall_side w).mpr ⟨fun x => ?_, fun x => ?_⟩⟩
  · rw [hacct, h.2, give, if_pos rfl]
  · rw [hside.account, h.2, give, if_neg (by cases w <;> simp [Side.other]), Nat.add_zero]

theorem freeChunk_given (w : Side) (h : Given bits g s) (hspan : Span bits base end_) :
    Wp (sysJudge bits) (fpageFreeChunk (linkedEnv bits w) bits base end_) s fun _ s' =>
      Given bits (give w (Cover.span base (end_ + 1 - base)) g) s' := by
  refine (fpageFreeChunk_wp hb (linkedContract hb h12 w s) s (Beside.refl h.1 w) (h.1 w) hspan).mono ?_
  rintro _ s' ⟨hside, hinv, hgained, -⟩
  exact h.of_beside hside hinv (hgained.2 trivial)

theorem freeInternal_given (w : Side) (h : Given bits g s) (hspan : Span bits base end_) :
    Wp (sysJudge bits) (fpageFreeInternal (linkedEnv bits w) bits base end_) s fun _ s' =>
      Given bits (give w (Cover.span base (end_ + 1 - base)) g) s' := by
  refine (fpageFreeInternal_wp hb (linkedContract hb h12 w s) s (Beside.refl h.1 w) (h.1 w) hspan).mono ?_
  rintro _ s' ⟨hside, hinv, hgained, -⟩
  exact h.of_beside hside hinv (hgained.2 trivial)

theorem clearInternal_given (w : Side) (h : Given bits g s) :
    Wp (sysJudge bits) (fpageClearInternal (linkedEnv bits w) bits) s fun _ s' => Given bits g s' := by
  refine (fpageClearInternal_wp hb (linkedContract hb h12 w s) s (Beside.refl h.1 w) (h.1 w)).mono ?_
  rintro _ s' ⟨hside, hinv, hacct, -⟩
  have hgiven := h.of_beside (d := fun _ => 0) hside hinv fun x => congrFun hacct x
  refine ⟨hgiven.1, fun v x => ?_⟩
  rw [hgiven.2, give, ite_self, Nat.add_zero]

omit hb h12 in
theorem give_add {w : Side} {d d' : Nat → Nat} :
    give w d' (give w d g) = give w (fun x => d x + d' x) g := by
  funext v x
  simp only [give]
  split <;> omega

omit hb h12 in
theorem give_zero {w : Side} {d : Nat → Nat} (hd : ∀ x, d x = 0) : give w d g = g := by
  funext v x
  simp [give, hd]

omit hb h12 in
/-- The parts of the regions of a list, one after the other. -/
theorem give_weight_cons {w : Side} (part : Nat → Region → Nat) (r : Region) (rs : List Region) :
    give w (fun x => weight (part x) (r :: rs)) g =
      give w (fun x => weight (part x) rs) (give w (fun x => part x r) g) := by
  rw [give_add]
  exact congrArg (fun d => give w d g) (funext fun x => weight_cons _ _ _)

/-- The third loop. -/
theorem freePhysical_given (rs : List Region)
    (hrs : ∀ r ∈ rs, r.base ≠ r.end_ → r.Roundable bits) (s : Sys) (g : Side → Nat → Nat)
    (h : Given bits g s) : Wp (sysJudge bits) (freePhysical bits rs) s fun _ s' =>
      Given bits (give .pm (fun x => weight (freedPart bits x) rs) g) s' := by
  induction rs generalizing s g with
  | nil =>
    refine wp_pure ?_
    rw [give_zero fun x => weight_nil _]
    exact h
  | cons r rs ih =>
    have hrest := ih fun q hq => hrs q (List.mem_cons_of_mem _ hq)
    rw [freePhysical, give_weight_cons]
    refine wp_ite (fun heq => ?_) fun hne => ?_
    · have hnone : ∀ x, freedPart bits x r = 0 := fun x => if_pos heq
      rw [give_zero hnone]
      exact hrest s g h
    · refine wp_bind (wp_onlyIf (fun hlt => ?_) fun hge => ?_)
      · refine (freeChunk_given hb h12 .pm h ((hrs r List.mem_cons_self hne).span hlt)).mono fun _ s' hs' => ?_
        simp only [freedPart, if_neg hne, if_pos hlt]
        exact hrest s' _ hs'
      · have hnone : ∀ x, freedPart bits x r = 0 := fun x => by rw [freedPart, if_neg hne, if_neg hge]
        rw [give_zero hnone]
        exact hrest s g h

/-- What the last loop frees of a region. -/
def wholePart (x : Nat) (r : Region) : Nat :=
  if r.base < r.end_ then Cover.span r.base (r.end_ + 1 - r.base) x else 0

/-- The last loop. -/
theorem freeVirtual_given (rs : List Region)
    (hrs : ∀ r ∈ rs, r.base < r.end_ → Span bits r.base r.end_) (s : Sys) (g : Side → Nat → Nat)
    (h : Given bits g s) : Wp (sysJudge bits) (freeVirtual bits rs) s fun _ s' =>
      Given bits (give .vm (fun x => weight (wholePart x) rs) g) s' := by
  induction rs generalizing s g with
  | nil =>
    refine wp_pure ?_
    rw [give_zero fun x => weight_nil _]
    exact h
  | cons r rs ih =>
    have hrest := ih fun q hq => hrs q (List.mem_cons_of_mem _ hq)
    rw [give_weight_cons]
    refine wp_bind (wp_onlyIf (fun hlt => ?_) fun hge => ?_)
    · refine (freeChunk_given hb h12 .vm h (hrs r List.mem_cons_self hlt)).mono fun _ s' hs' => ?_
      simp only [wholePart, if_pos hlt]
      exact hrest s' _ hs'
    · have hnone : ∀ x, wholePart x r = 0 := fun x => if_neg hge
      rw [give_zero hnone]
      exact hrest s g h

omit hb h12 in
theorem given_init : Given bits (fun _ _ => 0) Sys.init := by
  refine ⟨linked_init.inv, fun w x => ?_⟩
  rw [account, show Sys.init.side w = Ledger.empty.alloc by cases w <;> rfl, own_empty]
  rfl

omit hb h12 in
/-- A range of whole pages has the page of each of its addresses. -/
theorem page_inside (h : Span bits base end_) {x y : Nat} (hx : base ≤ x ∧ x ≤ end_)
    (hy : y / 2 ^ bits = x / 2 ^ bits) : base ≤ x / 2 ^ bits * 2 ^ bits ∧
      x / 2 ^ bits * 2 ^ bits + (2 ^ bits - 1) ≤ end_ ∧ base ≤ y ∧ y ≤ end_ := by
  have hp : 0 < 2 ^ bits := Nat.two_pow_pos bits
  obtain ⟨m, hm⟩ := Nat.dvd_of_mod_eq_zero h.base_aligned
  obtain ⟨n, hn⟩ := Nat.dvd_of_mod_eq_zero h.end_aligned
  have hlow : m * 2 ^ bits ≤ x / 2 ^ bits * 2 ^ bits := by
    refine Nat.mul_le_mul_right _ ((Nat.le_div_iff_mul_le hp).mpr ?_)
    rw [Nat.mul_comm]
    omega
  have hhigh : (x / 2 ^ bits + 1) * 2 ^ bits ≤ n * 2 ^ bits := by
    refine Nat.mul_le_mul_right _ ((Nat.div_lt_iff_lt_mul hp).mpr ?_)
    rw [Nat.mul_comm]
    omega
  have hdiv := Nat.div_add_mod y (2 ^ bits)
  have hmod := Nat.mod_lt y hp
  rw [hy, Nat.mul_comm] at hdiv
  rw [Nat.mul_comm] at hm hn
  rw [Nat.add_mul, Nat.one_mul] at hhigh
  omega

omit hb h12 in
/-- What is given to `pm_alloc`: the part of the region that the slab caches begin with, and of the others
    what the third loop frees. -/
theorem freedPart_consumed {l t : List Region} {r : Region} (hr : r.Roundable bits) (hbits : 0 < bits)
    (hlt : innerBase (2 ^ bits) r < innerEnd (2 ^ bits) r) (x : Nat) :
    Cover.span (innerBase (2 ^ bits) r) (innerEnd (2 ^ bits) r + 1 - innerBase (2 ^ bits) r) x +
        weight (freedPart bits x) (l ++ ⟨r.base, r.base⟩ :: t) =
      weight (freedPart bits x) (l ++ r :: t) := by
  have hmarked : freedPart bits x ⟨r.base, r.base⟩ = 0 := if_pos rfl
  have hpart : freedPart bits x r =
      Cover.span (innerBase (2 ^ bits) r) (innerEnd (2 ^ bits) r + 1 - innerBase (2 ^ bits) r) x := by
    rw [freedPart, if_neg (hr.ne hbits hlt), if_pos hlt]
  rw [weight_append, weight_append, weight_cons, weight_cons, hmarked, hpart]
  omega

omit hb h12 in
/-- What is given to `vm_alloc` are pages inside the regions. -/
theorem wholePart_pages {rs : List Region} (hrs : ∀ r ∈ rs, r.base < r.end_ → Span bits r.base r.end_) {x : Nat}
    (h : 0 < weight (wholePart x) rs) : (∃ r ∈ rs, r.base < r.end_ ∧ Interior bits [r] x) ∧
      ∀ y, y / 2 ^ bits = x / 2 ^ bits → 0 < weight (wholePart y) rs := by
  have hsome : ∃ r ∈ rs, wholePart x r ≠ 0 := by
    by_contra hnone
    refine absurd (weight_eq_zero fun r hr => ?_) h.ne'
    by_contra hne
    exact hnone ⟨r, hr, hne⟩
  obtain ⟨r, hr, hpart⟩ := hsome
  have hlt : r.base < r.end_ := by
    by_contra hge
    exact hpart (if_neg hge)
  have hspan := hrs r hr hlt
  have hx : r.base ≤ x ∧ x ≤ r.end_ := by
    rw [wholePart, if_pos hlt, Ne, span_eq_zero, not_not] at hpart
    omega
  refine ⟨⟨r, hr, hlt, r, List.mem_singleton_self r, ?_⟩, fun y hy => ?_⟩
  · have hin := page_inside hspan hx (rfl : x / 2 ^ bits = x / 2 ^ bits)
    exact ⟨hin.1, hin.2.1⟩
  · have hin := page_inside hspan hx hy
    have hone : wholePart y r = 1 := by
      rw [wholePart, if_pos hlt, span_eq_one]
      omega
    have hle := le_weight_of_mem (w := wholePart y) hr
    omega

/-- What the loops have given out behind each other, when the first regions have whole pages. -/
theorem bootstrap_wp {regions vmRegions vmRest rest : List Region} {v r : Region} {i j : Nat}
    (hv : consume (vmEnough (2 ^ bits)) vmRegions = some (v, i, vmRest))
    (hr : consume (pmEnough (2 ^ bits)) regions = some (r, j, rest)) (hi : i < regions.length)
    (hvspan : Span bits (innerBase (2 ^ bits) v) (innerEnd (2 ^ bits) v))
    (hrspan : Span bits (innerBase (2 ^ bits) r) (innerEnd (2 ^ bits) r))
    (hround : ∀ q ∈ rest, q.base ≠ q.end_ → q.Roundable bits)
    (hspans : ∀ q ∈ vmRest, q.base < q.end_ → Span bits q.base q.end_) :
    Wp (sysJudge bits) (bootstrap bits regions vmRegions) Sys.init fun first s' =>
      first = ⟨some (innerBase (2 ^ bits) v, innerEnd (2 ^ bits) v),
        (innerBase (2 ^ bits) r, innerEnd (2 ^ bits) r)⟩ ∧
      Given bits (give .vm (fun x => weight (wholePart x) vmRest)
        (give .pm (fun x => weight (freedPart bits x) rest)
          (give .pm (Cover.span (innerBase (2 ^ bits) r) (innerEnd (2 ^ bits) r + 1 - innerBase (2 ^ bits) r))
            (give .vm (Cover.span (innerBase (2 ^ bits) v) (innerEnd (2 ^ bits) v + 1 - innerBase (2 ^ bits) v))
              fun _ _ => 0)))) s' := by
  refine wp_bind ?_
  rw [bootVirtual, hv]
  refine wp_bind ((freeInternal_given hb h12 .vm given_init hvspan).mono fun _ s₁ h₁ => wp_pure ?_)
  refine wp_bind (wp_onlyIf (fun hge => absurd hi (Nat.not_lt.mpr hge)) fun _ => wp_bind ?_)
  rw [bootPhysical, hr]
  refine wp_bind ((freeChunk_given hb h12 .pm h₁ hrspan).mono fun _ s₂ h₂ => wp_pure ?_)
  refine wp_bind ((freePhysical_given hb h12 rest hround s₂ _ h₂).mono fun _ s₃ h₃ => ?_)
  refine wp_bind ((clearInternal_given hb h12 .vm h₃).mono fun _ s₄ h₄ => ?_)
  refine wp_bind ((freeVirtual_given hb h12 vmRest hspans s₄ _ h₄).mono fun _ s₅ h₅ => ?_)
  exact wp_pure ⟨rfl, h₅⟩

omit hb h12 in
/-- The first virtual region that has pages, and those that are left of the others, are whole pages
    inside the regions. -/
theorem firstVirtual_pages {vmRegions vmRest : List Region} {v : Region} {i : Nat}
    (hv : consume (vmEnough (2 ^ bits)) vmRegions = some (v, i, vmRest))
    (hvround : v.Roundable bits) (hvlt : innerBase (2 ^ bits) v < innerEnd (2 ^ bits) v)
    (hspans : ∀ q ∈ vmRest, q.base < q.end_ → Span bits q.base q.end_) {x : Nat}
    (hx : 0 < Cover.span (innerBase (2 ^ bits) v)
      (innerEnd (2 ^ bits) v + 1 - innerBase (2 ^ bits) v) x + weight (wholePart x) vmRest) :
    Interior bits vmRegions x ∧ ∀ y, y / 2 ^ bits = x / 2 ^ bits →
      0 < Cover.span (innerBase (2 ^ bits) v)
        (innerEnd (2 ^ bits) v + 1 - innerBase (2 ^ bits) v) y + weight (wholePart y) vmRest := by
  obtain ⟨l, t, hvm, -, -⟩ := consume_eq hv
  by_cases hfirst : innerBase (2 ^ bits) v ≤ x ∧ x ≤ innerEnd (2 ^ bits) v
  · refine ⟨⟨v, by simp [hvm], hvround.inner_iff.mp hfirst⟩, fun y hy => ?_⟩
    have hin := page_inside (hvround.span hvlt) hfirst hy
    rw [(span_inner hvlt).mpr hin.2.2]
    omega
  · have hzero := mt (span_inner (x := x) hvlt).mp hfirst
    have hle := span_le_one (innerBase (2 ^ bits) v) (innerEnd (2 ^ bits) v + 1 - innerBase (2 ^ bits) v) x
    obtain ⟨⟨q, hq, hlt, q', hq', hin⟩, hpage⟩ := wholePart_pages hspans (show 0 < weight (wholePart x) vmRest by omega)
    obtain rfl := List.mem_singleton.mp hq'
    refine ⟨⟨q', consume_mem hv hq hlt.ne, hin⟩, fun y hy => ?_⟩
    exact Nat.add_pos_right _ (hpage y hy)

/-- The loops one after the other, when the first regions have whole pages. -/
theorem bootstrap_given {regions vmRegions : List Region} (hapart : regions.Pairwise Apart)
    (h : Handable bits regions vmRegions) (hfirst : FirstWhole bits regions vmRegions)
    (hcalm : ∀ e ∈ (bootstrap bits regions vmRegions Sys.init).log, e.Calm) :
    Run.Ends (fun e => e = .panic)
      (fun first => HandedOver bits regions vmRegions first (bootstrap bits regions vmRegions Sys.init).state)
      (bootstrap bits regions vmRegions Sys.init).result := by
  have hbits : 0 < bits := by omega
  obtain ⟨v, i, vmRest, hv, hvlt, hi⟩ := hfirst.vm
  obtain ⟨r, j, rest, hr, hrlt⟩ := hfirst.pm
  obtain ⟨l, t, hvm, -, hvtest⟩ := consume_eq hv
  obtain ⟨l', t', hregions, hrest, hrtest⟩ := consume_eq hr
  have hvround := h.roundVm v (by simp [hvm])
  have hvspan := hvround.span hvlt
  have hrround := h.round r (by simp [hregions])
  have hrspan := hrround.span hrlt
  have hspans : ∀ q ∈ vmRest, q.base < q.end_ → Span bits q.base q.end_ := by
    intro q hq hlt
    have hround := h.roundVm q (consume_mem hv hq hlt.ne)
    obtain ⟨hbase, hend⟩ := h.aligned v i vmRest hv q hq hlt
    exact ⟨hbase, hend, hlt, hround.high, hround.half⟩
  have hwp := bootstrap_wp hb h12 hv hr hi hvspan hrspan
    (fun q hq hne => h.round q (consume_mem hr hq hne)) hspans
  refine (hwp.ends hcalm).mono ?_
  rintro first ⟨rfl, -, hacct⟩
  have hpm : ∀ x, account bits .pm (bootstrap bits regions vmRegions Sys.init).state x =
      weight (freedPart bits x) regions := by
    intro x
    rw [hacct, hregions, ← freedPart_consumed hrround hbits hrlt, ← hrest]
    simp [give]
  have hvmacct : ∀ x, account bits .vm (bootstrap bits regions vmRegions Sys.init).state x =
      Cover.span (innerBase (2 ^ bits) v) (innerEnd (2 ^ bits) v + 1 - innerBase (2 ^ bits) v) x +
        weight (wholePart x) vmRest := by
    intro x
    rw [hacct]
    simp [give]
  constructor
  case pm =>
    intro x
    rw [hpm]
    exact freedPart_pos hbits h.round
  case once =>
    intro x
    rw [hpm]
    exact freedPart_le_one hbits h.round hapart
  case vm =>
    intro x hx
    simp only [hvmacct] at hx ⊢
    exact firstVirtual_pages hv hvround hvlt hspans hx
  case firstPm => exact hrtest.twoPages hrspan
  case firstVm => exact ⟨_, rfl, hvtest.twoPages hvspan⟩

omit hb h12 in
/-- The ranges that a run has begun with are those of the regions that pass the tests. -/
theorem bootstrap_first {regions vmRegions : List Region} {s : Sys} {first : FirstRanges}
    (h : (bootstrap bits regions vmRegions s).result = .ok first) :
    (∀ range, first.vm = some range → ∃ r i rest, consume (vmEnough (2 ^ bits)) vmRegions = some (r, i, rest) ∧
      range = (innerBase (2 ^ bits) r, innerEnd (2 ^ bits) r) ∧ i < regions.length) ∧
    ∃ r i rest, consume (pmEnough (2 ^ bits)) regions = some (r, i, rest) ∧
      first.pm = (innerBase (2 ^ bits) r, innerEnd (2 ^ bits) r) := by
  -- nothing is asked of the allocators here
  let J : Judge Event Fault := ⟨fun _ => True, fun _ => True, fun _ => True⟩
  have hany : ∀ {α : Type} (m : Prog Event Sys Fault α) (s : Sys), Wp J m s fun _ _ => True := by
    intro α m s _
    refine ⟨fun _ _ => trivial, ?_⟩
    cases (m s).result <;> trivial
  have hpm : ∀ s, Wp J (bootPhysical bits regions) s fun c _ =>
      ∃ r i rest, consume (pmEnough (2 ^ bits)) regions = some (r, i, rest) ∧
        c.1 = (innerBase (2 ^ bits) r, innerEnd (2 ^ bits) r) := by
    intro s
    rw [bootPhysical]
    cases hc : consume (pmEnough (2 ^ bits)) regions with
    | none => exact wp_raise trivial
    | some c =>
      obtain ⟨r, i, rest⟩ := c
      exact wp_bind ((hany _ s).mono fun _ _ _ => wp_pure ⟨r, i, rest, rfl, rfl⟩)
  have hvm : ∀ s, Wp J (bootVirtual bits vmRegions) s fun c _ =>
      ∀ range, c.1 = some range → ∃ r rest, consume (vmEnough (2 ^ bits)) vmRegions = some (r, c.2.1, rest) ∧
        range = (innerBase (2 ^ bits) r, innerEnd (2 ^ bits) r) := by
    intro s
    rw [bootVirtual]
    cases hc : consume (vmEnough (2 ^ bits)) vmRegions with
    | none => exact wp_pure fun range hrange => nomatch hrange
    | some c =>
      obtain ⟨r, i, rest⟩ := c
      refine wp_bind ((hany _ s).mono fun _ _ _ => wp_pure fun range hrange => ?_)
      exact ⟨r, rest, rfl, (Option.some.inj hrange).symm⟩
  have hwp : Wp J (bootstrap bits regions vmRegions) s fun first _ =>
      (∀ range, first.vm = some range → ∃ r i rest,
        consume (vmEnough (2 ^ bits)) vmRegions = some (r, i, rest) ∧
        range = (innerBase (2 ^ bits) r, innerEnd (2 ^ bits) r) ∧ i < regions.length) ∧
      ∃ r i rest, consume (pmEnough (2 ^ bits)) regions = some (r, i, rest) ∧
        first.pm = (innerBase (2 ^ bits) r, innerEnd (2 ^ bits) r) := by
    refine wp_bind ((hvm s).mono fun c s₁ hc => ?_)
    obtain ⟨vm, i, vmRest⟩ := c
    refine wp_bind (wp_onlyIf (fun _ => wp_raise trivial) fun hplace => wp_bind ((hpm s₁).mono fun c' s₂ hc' => ?_))
    obtain ⟨pm, rest⟩ := c'
    refine wp_bind ((hany _ s₂).mono fun _ s₃ _ => wp_bind ((hany _ s₃).mono fun _ s₄ _ =>
      wp_bind ((hany _ s₄).mono fun _ s₅ _ => wp_pure ⟨fun range hrange => ?_, hc'⟩)))
    obtain ⟨r, rest', hr, hrange'⟩ := hc range hrange
    exact ⟨r, i, rest', hr, hrange', Nat.lt_of_not_ge hplace⟩
  have hends := hwp.ends fun _ _ => trivial
  rw [h] at hends
  cases hends with
  | ok hfirst => exact hfirst

end

/-- 1 MiB of physical memory, some that is not aligned, and some that has no whole page. -/
def bank : List Region := [⟨0x100000, 0x1fffff⟩, ⟨0x200c00, 0x203bff⟩, ⟨0x205400, 0x2057ff⟩]

/-- 16 MiB of virtual memory, and 64 KiB more. -/
def window : List Region := [⟨0x40000000, 0x40ffffff⟩, ⟨0x80000000, 0x8000ffff⟩]

end FreeVMS.Boot
