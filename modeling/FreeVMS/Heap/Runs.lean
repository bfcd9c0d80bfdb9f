import FreeVMS.Heap.AllocSpec

/-!
# Runs of the heap

Sequences of `sys$alloc` and `sys$free`, with `sys$back_mem` succeeding or failing as it may.  The
invariant holds along them as long as the size of a request is not cut short on its way to
`sys$morecore`.
-/

namespace FreeVMS.Heap

open Alloc LinkRing Tiling Run

/-- The heap, and the blocks in use with the bytes that were asked for; the code keeps no such
    list. -/
structure HeapState where
  heap : Memory
  live : List (Nat × Nat)

/-- After `sys$alloc_init`. -/
def heapInit (A : Arena) (ptr size : Nat → Nat) : HeapState := ⟨⟨A.lo, 0, ptr, size⟩, []⟩

inductive HeapCall where
  /-- `sys$alloc`; `back` says how `sys$back_mem` ends when it is called during the call -/
  | alloc (nbytes : Nat) (back : Nat → Bool)
  | free (ap : Nat)

def heapStep (A : Arena) (fuel : Nat) (c : HeapCall) (s : HeapState) : Except Fault HeapState :=
  match c with
  | .alloc nbytes back =>
      (sysAlloc A fuel back nbytes s.heap).map fun r =>
        ⟨r.2, if r.1 = 0 then s.live else (r.1 - 16, nbytes) :: s.live⟩
  | .free ap =>
      (sysFree fuel ap s.heap).map fun heap => ⟨heap, s.live.filter fun x => x.1 + 16 ≠ ap⟩

/-- A block that is freed is in use. -/
def HeapCall.Legal (c : HeapCall) (s : HeapState) : Prop :=
  match c with
  | .alloc nbytes _ => nbytes < wordSize
  | .free ap => ∃ x ∈ s.live, x.1 + 16 = ap

section

variable (A : Arena)

/-- **The heap is well**: it has not been used yet, or its free blocks are a ring through `base` in the
    order of their addresses, no two of them adjacent, and tile what was obtained from
    `sys$morecore` together with the blocks in use, which have the room that was asked for. -/
def HeapWell (s : HeapState) : Prop :=
  (s.heap.freep = 0 ∧ s.heap.bss = A.lo ∧ s.live = []) ∨ ∃ fs, HInv A s.heap fs s.live

/-- The headers that a request needs, with its own one. -/
def exactUnits (nbytes : Nat) : Nat := (nbytes + 15) / 16 + 1

/-- Some header on the ring has at least `t` headers. -/
def BigFree (s : Memory) (t : Nat) : Prop := ∃ k, t ≤ s.size (s.ptr^[k] A.base)

/-- A request that is not cut short: its size and the rounding of it fit an `unsigned int`; or its
    size fits and a free block is big enough; or what remains of its size is neither 0 nor served
    by a free block, and `sys$morecore` returns `NULL`. -/
def SizeOk (nbytes : Nat) (back : Nat → Bool) (s : Memory) : Prop :=
  exactUnits nbytes + A.perPage ≤ 2 ^ 32 ∨
    (exactUnits nbytes < 2 ^ 32 ∧ BigFree A (startList A s) (exactUnits nbytes)) ∨
    (0 < unitsFor nbytes ∧ ¬ BigFree A (startList A s) (unitsFor nbytes) ∧
      Refused A s (unitsFor nbytes) (back 0))

/-- What a call does: it returns, a request that is refused leaves the heap as it was (but for the
    list that is made at the first call), and a block that is returned has the room that was asked
    for. -/
def CallWell (fuel : Nat) (c : HeapCall) (s : HeapState) : Prop :=
  match c with
  | .alloc nbytes back => ∃ r heap, sysAlloc A fuel back nbytes s.heap = .ok (r, heap) ∧
      (r = 0 → heap = startList A s.heap) ∧ (r ≠ 0 → nbytes + 16 ≤ 16 * heap.size (r - 16))
  | .free ap => ∃ heap, sysFree fuel ap s.heap = .ok heap

end

section

variable {A : Arena} {s : Memory} {fs : List Nat} {live live' : List (Nat × Nat)} {t fuel nbytes : Nat}
  {back : Nat → Bool}

theorem HInv.live_perm (h : HInv A s fs live) (hp : live.Perm live') : HInv A s fs live' where
  toRingInv := h.toRingInv
  tiles := h.tiles.perm ((hp.map _).append_left _)
  room x hx := h.room x (hp.mem_iff.mpr hx)

/-- The headers on the ring. -/
theorem HInv.bigFree_iff (h : HInv A s fs live) (ht : 0 < t) : BigFree A s t ↔ ∃ f ∈ fs, t ≤ s.size f := by
  constructor
  · rintro ⟨k, hk⟩
    rcases List.mem_cons.mp (h.ring.iterate_mem k) with heq | hmem
    · rw [heq, h.zero] at hk
      omega
    · exact ⟨_, hmem, hk⟩
  · rintro ⟨f, hf, hle⟩
    obtain ⟨k, rfl⟩ := h.ring.exists_iterate (List.mem_cons_of_mem _ hf)
    exact ⟨k, hle⟩

/-- Making the list at the first call. -/
theorem HeapWell.start {s : HeapState} (h : HeapWell A s) : ∃ fs, HInv A (startList A s.heap) fs s.live := by
  rcases h with ⟨hfreep, hbss, hlive⟩ | ⟨fs, hinv⟩
  · refine ⟨[], ⟨?_, ?_, ?_, List.Pairwise.nil, ?_⟩, ?_, ?_⟩
    all_goals rw [startList, if_pos hfreep]
    · exact Function.update_self _ _ _
    · exact Function.update_self _ _ _
    · exact List.mem_cons_self
    · exact hbss.le.trans A.order
    · rw [hlive, hbss]
      exact tiles_empty A.lo
    · simp [hlive]
  · have hpos := hinv.freep_pos
    rw [startList, if_neg (by omega)]
    exact ⟨fs, hinv⟩

theorem exactUnits_le (hn : nbytes < wordSize) (h : exactUnits nbytes < 2 ^ 32) :
    unitsFor nbytes = exactUnits nbytes := by
  have hw : wordSize = 2 ^ 64 := rfl
  rw [exactUnits] at *
  rw [unitsFor, wordAdd, Nat.mod_eq_of_lt (a := nbytes + 15) (by omega), Nat.mod_eq_of_lt h]

theorem room_exactUnits (n : Nat) : n + 16 ≤ 16 * exactUnits n := by
  rw [exactUnits]
  omega

theorem startList_bss (A : Arena) (s : Memory) : (startList A s).bss = s.bss := by
  rw [startList]
  split <;> rfl

theorem two_le_rounds (A : Arena) : 2 ≤ A.rounds := Nat.le_add_left _ _

/-- A request whose size is not cut short, from a heap with its list made. -/
theorem HInv.alloc (h : HInv A s fs live) (hn : nbytes < wordSize) (hfuel : A.rounds ≤ fuel)
    (hok : exactUnits nbytes + A.perPage ≤ 2 ^ 32 ∨
      (exactUnits nbytes < 2 ^ 32 ∧ BigFree A s (exactUnits nbytes)) ∨
      (0 < unitsFor nbytes ∧ ¬ BigFree A s (unitsFor nbytes) ∧
        Refused A s (unitsFor nbytes) (back 0))) :
    allocLoop A fuel back (unitsFor nbytes) fuel 0 s.freep s = .ok (0, s) ∨
      ∃ q s', allocLoop A fuel back (unitsFor nbytes) fuel 0 s.freep s = .ok (q + 16, s') ∧
        Given A s' live q (exactUnits nbytes) := by
  have htwo := two_le_rounds A
  have hper := A.perPage_spec
  obtain ⟨turns, hturns⟩ : ∃ k, fuel = k + 2 := ⟨fuel - 2, by omega⟩
  have hpos : 0 < exactUnits nbytes := Nat.succ_pos _
  -- the size fits, and the free blocks are searched
  have hexact : exactUnits nbytes < 2 ^ 32 → BigFree A s (exactUnits nbytes) →
      ∃ q s', allocLoop A fuel back (unitsFor nbytes) fuel 0 s.freep s = .ok (q + 16, s') ∧
        Given A s' live q (exactUnits nbytes) := by
    intro hlt hbig
    rw [exactUnits_le hn hlt]
    nth_rewrite 2 [hturns]
    exact h.loop_found back hpos hfuel ((h.bigFree_iff hpos).mp hbig) (turns + 1) 0
  have hrefused : 0 < unitsFor nbytes → ¬ BigFree A s (unitsFor nbytes) →
      Refused A s (unitsFor nbytes) (back 0) →
      allocLoop A fuel back (unitsFor nbytes) fuel 0 s.freep s = .ok (0, s) := by
    intro ht hsmall href
    rw [h.bigFree_iff ht] at hsmall
    nth_rewrite 2 [hturns]
    exact h.loop_refused ht hfuel (fun f hf => by
      by_contra hcon
      exact hsmall ⟨f, hf, Nat.not_lt.mp hcon⟩) href (turns + 1)
  rcases hok with hfits | ⟨hlt, hbig⟩ | ⟨ht, hsmall, href⟩
  · have hlt : exactUnits nbytes < 2 ^ 32 := by omega
    by_cases hbig : BigFree A s (exactUnits nbytes)
    · exact .inr (hexact hlt hbig)
    · rw [exactUnits_le hn hlt] at hrefused ⊢
      by_cases href : Refused A s (exactUnits nbytes) (back 0)
      · exact .inl (hrefused hpos hbig href)
      · rw [h.bigFree_iff hpos] at hbig
        right
        nth_rewrite 2 [hturns]
        exact h.loop_grown hpos hfuel (fun f hf => by
          by_contra hcon
          exact hbig ⟨f, hf, Nat.not_lt.mp hcon⟩) (le_roundUnits hfits) href turns
  · exact .inr (hexact hlt hbig)
  · exact .inl (hrefused ht hsmall href)

/-- **Allocation.** -/
theorem HeapWell.alloc {s : HeapState} (h : HeapWell A s) (hn : nbytes < wordSize)
    (hfuel : A.rounds ≤ fuel) (hok : SizeOk A nbytes back s.heap) :
    sysAlloc A fuel back nbytes s.heap = .ok (0, startList A s.heap) ∨
      ∃ q heap, sysAlloc A fuel back nbytes s.heap = .ok (q + 16, heap) ∧
        Given A heap s.live q (exactUnits nbytes) := by
  obtain ⟨fs, hinv⟩ := h.start
  refine hinv.alloc hn hfuel ?_
  rw [SizeOk] at hok
  simpa only [Refused, startList_bss] using hok

/-- **Release.** -/
theorem HeapWell.free {s : HeapState} (h : HeapWell A s) (hfuel : A.rounds ≤ fuel) {x : Nat × Nat}
    (hx : x ∈ s.live) :
    ∃ heap fs, sysFree fuel (x.1 + 16) s.heap = .ok heap ∧
      HInv A heap fs (s.live.filter fun y => y.1 + 16 ≠ x.1 + 16) := by
  rcases h with ⟨-, -, hlive⟩ | ⟨fs, hinv⟩
  · rw [hlive] at hx
    exact absurd hx List.not_mem_nil
  · obtain ⟨l, r, hsplit⟩ := List.append_of_mem hx
    have hperm : s.live.Perm (x :: (l ++ r)) := hsplit ▸ List.perm_middle
    have hinv' := hinv.live_perm hperm
    have hfirst : Tiles A.lo s.heap.bss (blk s.heap.size x.1 :: tilesOf s.heap.size fs (l ++ r)) :=
      hinv'.tiles.perm tilesOf_cons.symm
    have hother : ∀ y ∈ l ++ r, y.1 ≠ x.1 := fun y hy heq =>
      hfirst.ne (mem_tilesOf.mpr (.inr ⟨y, hy, rfl⟩)) heq.symm
    have hfilter : (s.live.filter fun y => y.1 + 16 ≠ x.1 + 16) = l ++ r := by
      rw [hsplit, List.filter_append, List.filter_cons_of_neg (by simp), ← List.filter_append]
      refine List.filter_eq_self.mpr fun y hy => ?_
      simpa using hother y hy
    obtain ⟨heap, fs', hfree, hheap, -⟩ := sysFree_spec hinv'.toRingInv hinv'.tiles
      (fun y hy => hinv'.room y (List.mem_cons_of_mem _ hy)) hfuel
    rw [hfilter]
    exact ⟨heap, fs', hfree, hheap⟩

/-- The condition at a call. -/
def Sound (A : Arena) (c : HeapCall) (s : HeapState) : Prop :=
  match c with
  | .alloc nbytes back => SizeOk A nbytes back s.heap
  | .free _ => True

/-- A call that meets the condition does what it is for. -/
theorem HeapWell.call {s : HeapState} {c : HeapCall} (h : HeapWell A s) (hfuel : A.rounds ≤ fuel)
    (hl : c.Legal s) (hok : Sound A c s) : CallWell A fuel c s := by
  cases c with
  | alloc nbytes back =>
    rcases h.alloc hl hfuel hok with hnull | ⟨q, heap, halloc, hgiven⟩
    · exact ⟨0, _, hnull, fun _ => rfl, fun hne => absurd rfl hne⟩
    · refine ⟨q + 16, heap, halloc, fun heq => absurd heq (by omega), fun _ => ?_⟩
      rw [Nat.add_sub_cancel, hgiven.size]
      exact room_exactUnits nbytes
  | free ap =>
    obtain ⟨x, hx, rfl⟩ := hl
    obtain ⟨heap, fs, hfree, -⟩ := h.free hfuel hx
    exact ⟨heap, hfree⟩

/-- A call that meets the condition leaves the heap well. -/
theorem HeapWell.step {s s' : HeapState} {c : HeapCall} (h : HeapWell A s) (hfuel : A.rounds ≤ fuel)
    (hl : c.Legal s) (hok : Sound A c s) (hstep : heapStep A fuel c s = .ok s') : HeapWell A s' := by
  cases c with
  | alloc nbytes back =>
    rcases h.alloc hl hfuel hok with hnull | ⟨q, heap, halloc, hgiven⟩
    · rw [heapStep, hnull] at hstep
      obtain rfl := Except.ok.inj hstep
      exact .inr h.start
    · rw [heapStep, halloc] at hstep
      obtain rfl := Except.ok.inj hstep
      obtain ⟨fs, hinv⟩ := hgiven.inv nbytes (room_exactUnits nbytes)
      exact .inr ⟨fs, hinv⟩
  | free ap =>
    obtain ⟨x, hx, rfl⟩ := hl
    obtain ⟨heap, fs, hfree, hinv⟩ := h.free hfuel hx
    rw [heapStep, hfree] at hstep
    obtain rfl := Except.ok.inj hstep
    exact .inr ⟨fs, hinv⟩

/-- Along a run of calls that meet the condition, every call does what it is for and the heap stays
    well. -/
theorem heapWell_along (hfuel : A.rounds ≤ fuel) {calls : List HeapCall} {s : HeapState}
    (h : HeapWell A s) (hl : Along (heapStep A fuel) HeapCall.Legal calls s)
    (hok : Along (heapStep A fuel) (Sound A) calls s) :
    Along (heapStep A fuel) (CallWell A fuel) calls s ∧
      Ends (fun _ => False) (HeapWell A) (runs (heapStep A fuel) calls s) := by
  have hboth := hl.and hok
  refine ⟨?_, ?_⟩
  · exact Along.of_inv (I := HeapWell A) (fun c s h hc => h.call hfuel hc.1 hc.2)
      (fun c s s' h hc => h.step hfuel hc.1 hc.2) calls s h hboth
  · refine runs_induction (fun c s h hc => ?_) calls s h hboth
    have hcall := h.call hfuel hc.1 hc.2
    cases hs : heapStep A fuel c s with
    | ok s' => exact .ok (h.step hfuel hc.1 hc.2 hs)
    | error e =>
      exfalso
      cases c with
      | alloc nbytes back =>
        obtain ⟨r, heap, hr, -⟩ := hcall
        rw [heapStep, hr] at hs
        exact nomatch hs
      | free ap =>
        obtain ⟨heap, hr⟩ := hcall
        rw [heapStep, hr] at hs
        exact nomatch hs

end

theorem heapInit_well (A : Arena) (ptr size : Nat → Nat) : HeapWell A (heapInit A ptr size) :=
  .inl ⟨rfl, rfl, rfl⟩

/-- A request of less than 4 GiB, or a block in use that is freed. -/
def HeapCall.Small (c : HeapCall) (s : HeapState) : Prop :=
  match c with
  | .alloc nbytes _ => nbytes < 2 ^ 32
  | .free ap => ∃ x ∈ s.live, x.1 + 16 = ap

theorem HeapCall.Small.legal {c : HeapCall} {s : HeapState} (h : c.Small s) : c.Legal s := by
  cases c with
  | alloc nbytes back => exact Nat.lt_trans h (by decide)
  | free ap => exact h

/-- The size of a small request fits. -/
theorem HeapCall.Small.sound {A : Arena} {c : HeapCall} {s : HeapState} (h : c.Small s) : Sound A c s := by
  cases c with
  | alloc nbytes back =>
    have hper := A.perPage_spec
    have hn : nbytes < 2 ^ 32 := h
    left
    rw [exactUnits]
    omega
  | free ap => trivial

/-- **The heap invariant.**  In every sequence of requests of less than 4 GiB and of releases of
    blocks in use, however `sys$back_mem` ends, every call returns, a request that is refused
    changes nothing, and the heap stays well. -/
theorem heap_stays_well (A : Arena) {fuel : Nat} (hfuel : A.rounds ≤ fuel) (ptr size : Nat → Nat)
    (calls : List HeapCall)
    (hsmall : Along (heapStep A fuel) HeapCall.Small calls (heapInit A ptr size)) :
    Along (heapStep A fuel) (CallWell A fuel) calls (heapInit A ptr size) ∧
      Ends (fun _ => False) (HeapWell A) (runs (heapStep A fuel) calls (heapInit A ptr size)) :=
  heapWell_along hfuel (heapInit_well A ptr size) (hsmall.mono fun _ _ h => h.legal)
    (hsmall.mono fun _ _ h => h.sound)

/-- What a request is for: it returns, and a block that is returned has the room that was asked
    for. -/
def Served (A : Arena) (fuel : Nat) (c : HeapCall) (s : HeapState) : Prop :=
  match c with
  | .alloc nbytes back => ∃ r heap, sysAlloc A fuel back nbytes s.heap = .ok (r, heap) ∧
      (r ≠ 0 → nbytes + 16 ≤ 16 * heap.size (r - 16))
  | .free _ => True

/-- **Request sizes.**  In every run whose requests are not cut short, every request is served. -/
theorem requests_served (A : Arena) {fuel : Nat} (hfuel : A.rounds ≤ fuel) (ptr size : Nat → Nat)
    (calls : List HeapCall)
    (hlegal : Along (heapStep A fuel) HeapCall.Legal calls (heapInit A ptr size))
    (hsound : Along (heapStep A fuel) (Sound A) calls (heapInit A ptr size)) :
    Along (heapStep A fuel) (Served A fuel) calls (heapInit A ptr size) := by
  refine (heapWell_along hfuel (heapInit_well A ptr size) hlegal hsound).1.mono fun c s h => ?_
  cases c with
  | alloc nbytes back =>
    obtain ⟨r, heap, hr, -, hroom⟩ := h
    exact ⟨r, heap, hr, hroom⟩
  | free ap => trivial

/-- An arena of four pages. -/
def smallArena : Arena where
  bits := 12
  lo := 0x10000
  top := 0x13fff
  base := 0x1000
  page := ⟨by decide, by decide⟩
  low := by decide
  order := by decide
  high := by decide
  outside := .inl (by decide)

instance (c : HeapCall) (s : HeapState) : Decidable (c.Small s) :=
  match c with
  | .alloc nbytes _ => inferInstanceAs (Decidable (nbytes < 2 ^ 32))
  | .free ap => inferInstanceAs (Decidable (∃ x ∈ s.live, x.1 + 16 = ap))

/-- Two blocks from the end of a page, a request that is refused, and a release. -/
theorem smallArena_stays_well :
    Along (heapStep smallArena 1026) (CallWell smallArena 1026)
        [.alloc 100 fun _ => true, .alloc 20 fun _ => true, .alloc 5000 fun _ => false, .free 0x10f90]
        (heapInit smallArena (fun _ => 0) fun _ => 0) ∧
      Ends (fun _ => False) (HeapWell smallArena) (runs (heapStep smallArena 1026)
        [.alloc 100 fun _ => true, .alloc 20 fun _ => true, .alloc 5000 fun _ => false, .free 0x10f90]
        (heapInit smallArena (fun _ => 0) fun _ => 0)) :=
  heap_stays_well smallArena (by decide) _ _ _ (by decide +kernel)

/-- A request of 100 bytes is served. -/
theorem smallArena_served :
    Along (heapStep smallArena 1026) (Served smallArena 1026) [.alloc 100 fun _ => true]
      (heapInit smallArena (fun _ => 0) fun _ => 0) :=
  requests_served smallArena (by decide) _ _ _ ⟨show 100 < wordSize by decide, fun _ _ => trivial⟩
    ⟨.inl (by decide), fun _ _ => trivial⟩

/-- A request for all of the address space is served with one header and no room. -/
theorem huge_request_served_short :
    smallArena.rounds ≤ 1026 ∧
      (HeapCall.alloc (2 ^ 64 - 1) fun _ => true).Legal (heapInit smallArena (fun _ => 0) fun _ => 0) ∧
      ¬ Served smallArena 1026 (.alloc (2 ^ 64 - 1) fun _ => true)
        (heapInit smallArena (fun _ => 0) fun _ => 0) := by
  refine ⟨by decide, show 2 ^ 64 - 1 < wordSize by decide, ?_⟩
  rintro ⟨r, heap, hr, hroom⟩
  have hresult : (sysAlloc smallArena 1026 (fun _ => true) (2 ^ 64 - 1)
      (heapInit smallArena (fun _ => 0) fun _ => 0).heap).map (fun r => (r.1, r.2.size (r.1 - 16))) =
        .ok (0x11000, 1) := by decide +kernel
  rw [hr] at hresult
  obtain ⟨hr', hsize⟩ := Prod.mk.inj (Except.ok.inj hresult)
  have hle := hroom (by simp only at hr'; omega)
  simp only at hsize
  rw [hsize] at hle
  exact absurd hle (by decide)

end FreeVMS.Heap
