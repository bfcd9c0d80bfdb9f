import FreeVMS.Alloc.Exhaustion

/-!
# Chunks

`sys$fpage_alloc_chunk` looks for a flexpage of the requested order or a higher one, and takes the
largest lower one when there is none, to give it back.  When it hands out a chunk is told by the free
lists alone.
-/

namespace FreeVMS.Alloc

open Trace Cover Run

/-! ### Who panics -/

section

variable {ε σ : Type} {E : Env ε σ} {e : Fault} (bits : Nat)

/-- The environment never stops with the fault `e`. -/
structure Env.Avoids (E : Env ε σ) (e : Fault) : Prop where
  slabAlloc : E.slabAlloc.Avoids e
  slabFree : E.slabFree.Avoids e
  clearing : E.clearing.Avoids e
  filed : ∀ lo hi f, (E.filed lo hi f).Avoids e

theorem quietEnv_avoids (e : Fault) : quietEnv.Avoids e where
  slabAlloc := avoids_read.bind fun _ => (avoids_update _).bind fun _ => avoids_pure _
  slabFree := avoids_pure _
  clearing := avoids_pure _
  filed _ _ _ := avoids_pure _

theorem alloc_avoids : E.alloc.Avoids e := avoids_read.bind fun _ => avoids_pure _

theorem modify_avoids (f : FpageAlloc → FpageAlloc) : (E.modify f).Avoids e := avoids_update _

theorem insertTail_avoids (he : Fault.outOfBounds ≠ e) (order : Int) (f : Fpage) :
    (insertTail E order f).Avoids e :=
  avoids_ite (modify_avoids _) (avoids_raise he)

variable (hE : E.Avoids e) (hdiverge : Fault.diverge ≠ e) (hbounds : Fault.outOfBounds ≠ e)

include hE hdiverge hbounds

theorem clearLoop_avoids (fuel : Nat) : (clearLoop E bits fuel).Avoids e := by
  induction fuel with
  | zero => exact avoids_raise hdiverge
  | succ fuel ih =>
    refine alloc_avoids.bind fun a => avoids_ite ?_ (modify_avoids _)
    refine hE.clearing.bind fun _ => hE.slabAlloc.bind fun node => avoids_ite ?_ (avoids_pure _)
    refine alloc_avoids.bind fun a' => (insertTail_avoids hbounds _ _).bind fun _ => ?_
    exact (hE.filed _ _ _).bind fun _ => (modify_avoids _).bind fun _ => ih

theorem fpageClearInternal_avoids : (fpageClearInternal E bits).Avoids e :=
  alloc_avoids.bind fun _ => avoids_onlyIf (clearLoop_avoids bits hE hdiverge hbounds _)

theorem fpageFreeChunk_avoids (base end_ : Nat) : (fpageFreeChunk E bits base end_).Avoids e := by
  have hclear := fpageClearInternal_avoids bits hE hdiverge hbounds
  have hinternal : (fpageFreeInternal E bits base end_).Avoids e :=
    alloc_avoids.bind fun _ => (avoids_onlyIf hclear).bind fun _ => modify_avoids _
  exact alloc_avoids.bind fun _ => (avoids_onlyIf hclear).bind fun _ => hinternal.bind fun _ => hclear

theorem splitLoop_avoids (order fuel : Nat) : ∀ f, (splitLoop E bits order fuel f).Avoids e := by
  induction fuel with
  | zero => exact fun _ => avoids_raise hdiverge
  | succ fuel ih =>
    intro f
    refine avoids_ite (hE.slabAlloc.bind fun node => avoids_ite ?_ (avoids_pure _)) (avoids_pure _)
    exact (insertTail_avoids hbounds _ _).bind fun _ => ih _

theorem fpageAlloc_avoids (size : Nat) : (fpageAlloc E bits size).Avoids e := by
  rw [fpageAlloc]
  split
  · exact avoids_raise hdiverge
  · refine alloc_avoids.bind fun a => ?_
    split
    · exact avoids_pure _
    · split
      · exact avoids_pure _
      · refine (modify_avoids _).bind fun _ => hE.slabFree.bind fun _ => ?_
        exact splitLoop_avoids bits hE hdiverge hbounds _ _ _

theorem fpageAllocChunk_avoids (size : Nat) : (fpageAllocChunk E bits size).Avoids e := by
  have hfree := fpageFreeChunk_avoids bits hE hdiverge hbounds
  refine (fpageAlloc_avoids bits hE hdiverge hbounds size).bind fun f => avoids_ite (avoids_pure _) ?_
  refine avoids_ite ((hfree _ _).bind fun _ => avoids_pure _) ?_
  exact avoids_ite ((hfree _ _).bind fun _ => avoids_pure _) (avoids_pure _)

theorem freeNodes_avoids (l : List Fpage) : (freeNodes E bits l).Avoids e := by
  induction l with
  | nil => exact avoids_pure _
  | cons f l ih =>
    exact (fpageFreeChunk_avoids bits hE hdiverge hbounds _ _).bind fun _ => hE.slabFree.bind fun _ => ih

theorem allocListLoop_avoids (end_ pagesize fuel : Nat) :
    ∀ base l, (allocListLoop E bits end_ pagesize fuel base l).Avoids e := by
  have hfree := freeNodes_avoids bits hE hdiverge hbounds
  induction fuel with
  | zero => exact fun _ _ => avoids_raise hdiverge
  | succ fuel ih =>
    intro base l
    refine avoids_ite (avoids_ite (avoids_pure _) ?_) (avoids_pure _)
    refine (fpageAlloc_avoids bits hE hdiverge hbounds _).bind fun f => avoids_ite ?_ ?_
    · exact (hfree _).bind fun _ => avoids_pure _
    · refine hE.slabAlloc.bind fun node => avoids_ite (ih _ _) ?_
      exact (hfree _).bind fun _ => avoids_pure _

end

/-! ### The power of two -/

/-- The loop of `sys$setup_utcb_area` that finds the size of the UTCB area.  It has seen every power of
    two after 64 rounds. -/
def utcbFpageSize (areaSize : Nat) : Nat → Nat → Option Nat
  | 0, _ => none
  | fuel + 1, fpageSize =>
      if fpageSize < areaSize then utcbFpageSize areaSize fuel (wordShl fpageSize 1) else some fpageSize

/-- What `sys$pager` backs its heap with. -/
def heapPhysSize : Nat := 0x10000

theorem utcbFpageSize_pow {areaSize : Nat} : ∀ (fuel k : Nat), fuel + k = 64 → ∀ fpageSize,
    utcbFpageSize areaSize fuel (2 ^ k) = some fpageSize → ∃ k, fpageSize = 2 ^ k := by
  intro fuel
  induction fuel with
  | zero =>
    intro k _ fpageSize h
    exact absurd h (by simp [utcbFpageSize])
  | succ fuel ih =>
    intro k hk fpageSize h
    rw [utcbFpageSize] at h
    by_cases hlt : 2 ^ k < areaSize
    · rw [if_pos hlt] at h
      rcases Nat.lt_or_ge (k + 1) 64 with hk' | hk'
      · have hshl : wordShl (2 ^ k) 1 = 2 ^ (k + 1) := by
          rw [wordShl, show 1 % 64 = 1 from rfl, ← Nat.pow_add]
          exact Nat.mod_eq_of_lt (Nat.pow_lt_pow_right (by decide) hk')
        rw [hshl] at h
        exact ih (k + 1) (by omega) fpageSize h
      · -- the last round has no other to follow
        obtain rfl : fuel = 0 := by omega
        exact absurd h (by simp [utcbFpageSize])
    · rw [if_neg hlt] at h
      exact ⟨k, (Option.some.inj h).symm⟩

/-! ### What a chunk is -/

/-- What `sys$fpage_alloc_chunk` should do: it turns the request down when no flexpage has room for the
    next power of two and then leaves free what is free; otherwise it takes `size` free bytes, aligned to
    that power of two.  The checks of `sys$setup_utcb_area` and of `sys$pager` are on the base they get. -/
structure ChunkRight (size : Nat) (a a' : FpageAlloc) (mem : Nat) : Prop where
  refused : mem = invalidAddr ↔
    ∀ i ≤ maxFpageOrder, ∀ f ∈ a.flist i, l4Size f < 2 ^ Nat.clog 2 size
  unchanged : mem = invalidAddr → ∀ x, own a' x = own a x
  fits : mem ≠ invalidAddr → mem + size < wordSize
  free : mem ≠ invalidAddr → ∀ x, mem ≤ x → x < mem + size → own a x = 1
  taken : mem ≠ invalidAddr → ∀ x, own a' x + span mem size x = own a x
  aligned : mem ≠ invalidAddr → mem % 2 ^ Nat.clog 2 size = 0
  utcb : mem ≠ invalidAddr → ∀ areaSize, utcbFpageSize areaSize 64 1 = some size → mem % size = 0
  heapPhys : mem ≠ invalidAddr → size = heapPhysSize → mem % heapPhysSize = 0

/-- The call returns, and does what it should. -/
def AllocChunkRight (bits size : Nat) (answers : Nat → Bool) (L : Ledger) : Prop :=
  let out := fpageAllocChunk quietEnv bits size ⟨L.alloc, answers⟩
  ∃ mem, out.result = .ok mem ∧ ChunkRight size L.alloc out.state.alloc mem

theorem not_roomy_iff {size : Nat} {flist : Nat → List Fpage} : ¬ Roomy size flist ↔
    ∀ i ≤ maxFpageOrder, ∀ f ∈ flist i, l4Size f < 2 ^ Nat.clog 2 size := by
  simp only [Roomy, not_exists, not_and, Nat.not_le]

section

variable {bits : Nat} (hb : PageBits bits)

include hb

theorem Separate.allocChunkRight {L : Ledger} (hS : Separate bits L) {size : Nat}
    (hpage : size % 2 ^ bits = 0) (hsize : size ≤ 2 ^ 63) {answers : Nat → Bool}
    (hserved : ∀ k, answers k = true) : AllocChunkRight bits size answers L := by
  have hwp := fpageAllocChunk_wp hb (quietContract bits True) trivial ⟨L.alloc, answers⟩
    (fun _ => hserved) hS.ainv hpage hsize
  obtain ⟨mem, hmem, -, -, hres⟩ := hwp.exists_ok (fun _ _ => trivial) fun e he => by
    rw [show e = Fault.panic from he]
    exact fpageAllocChunk_avoids bits (quietEnv_avoids _) (by decide) (by decide) size
  refine ⟨mem, hmem, ?_⟩
  generalize (fpageAllocChunk quietEnv bits size ⟨L.alloc, answers⟩).state = s' at hres
  rcases hres with ⟨rfl, hacct, hroom⟩ | ⟨hal, hfits, hacct, hpow, hroom⟩
  · exact {
      refused := ⟨fun _ => not_roomy_iff.mp hroom, fun _ => rfl⟩
      unchanged := fun _ x => congrFun hacct x
      fits := fun h => absurd rfl h
      free := fun h => absurd rfl h
      taken := fun h => absurd rfl h
      aligned := fun h => absurd rfl h
      utcb := fun h => absurd rfl h
      heapPhys := fun h => absurd rfl h }
  · have hne := hb.ne_invalidAddr hal
    have htaken : ∀ x, own s'.alloc x + span mem size x = own L.alloc x := hacct
    -- a power of two is the next power of two of itself
    have hself : ∀ k, size = 2 ^ k → mem % size = 0 := fun k hk => by
      rw [hk, Nat.clog_pow 2 k (by decide)] at hpow
      rw [hk]
      exact hpow
    exact {
      refused := ⟨fun h => absurd h hne, fun h => absurd hroom (not_roomy_iff.mpr h)⟩
      unchanged := fun h => absurd h hne
      fits := fun _ => hfits
      free := fun _ x hx hx' => by
        have h1 := htaken x
        have h2 := hS.once x
        rw [span_eq_one.mpr ⟨hx, hx'⟩] at h1
        omega
      taken := fun _ => htaken
      aligned := fun _ => hpow
      utcb := fun _ areaSize h => by
        obtain ⟨k, hk⟩ := utcbFpageSize_pow 64 0 rfl size h
        exact hself k hk
      heapPhys := fun _ h => by
        rw [← h]
        exact hself 16 h }

/-- **Chunks.**  In every state that calls lead to whose arguments stay clear of the end of the address
    space, `sys$fpage_alloc_chunk` does what it should for every size of whole pages. -/
theorem runs_allocChunkRight (calls : List Call)
    (h : Along (perform bits) (Call.Steady bits) calls Ledger.empty) :
    Ends (fun e => e = .panic) (fun L => ∀ answers : Nat → Bool, (∀ k, answers k = true) →
      ∀ size, size % 2 ^ bits = 0 → size ≤ 2 ^ 63 → AllocChunkRight bits size answers L)
      (runs (perform bits) calls Ledger.empty) :=
  (runs_separate hb calls h).mono fun _ hS _ hserved _ hpage hsize =>
    hS.allocChunkRight hb hpage hsize hserved

end

theorem stocked_allocChunkRight : fault (runs (perform 12) stocked Ledger.empty) = none ∧
    Ends (fun e => e = .panic) (fun L => ∀ answers : Nat → Bool, (∀ k, answers k = true) →
      ∀ size, size % 2 ^ 12 = 0 → size ≤ 2 ^ 63 → AllocChunkRight 12 size answers L)
      (runs (perform 12) stocked Ledger.empty) := by
  have hbits : PageBits 12 := ⟨by decide, by decide⟩
  constructor
  · decide +kernel
  · exact runs_allocChunkRight hbits stocked stocked_steady

/-- One megabyte is free, and the last two pages of the address space are the internal range.  Three
    pages are wanted: the fourth goes back, and for this the internal range has to be cleared. -/
theorem chunk_rest_out_of_bounds :
    ¬ ∀ calls, Along (perform 12) (fun c L => c.Served ∧ c.op.Legal 12 L.alloc) calls Ledger.empty →
      Ends (fun e => e = .panic) (AllocChunkRight 12 0x3000 fun _ => true)
        (runs (perform 12) calls Ledger.empty) := by
  intro h
  let top : Call := ⟨.freeInternal (2 ^ 64 - 8192) (2 ^ 64 - 1), fun _ => true⟩
  have heval : (match runs (perform 12) (stocked ++ [top]) Ledger.empty with
      | .ok L => fault (fpageAllocChunk quietEnv 12 0x3000 ⟨L.alloc, fun _ => true⟩).result
      | .error _ => none) = some .outOfBounds := by decide +kernel
  have hbits : PageBits 12 := ⟨by decide, by decide⟩
  have hfree : ∀ L, perform 12 ⟨.freeChunk 0x100000 0x1fffff, fun _ => true⟩ Ledger.empty = .ok L →
      top.op.Legal 12 L.alloc := by
    intro L hL
    have hends := perform_spec hbits (ainv_empty 12) stocked_steady.1
    rw [hL] at hends
    cases hends with
    | ok hp =>
      refine ⟨⟨by decide, by decide⟩, by decide, by decide, fun x hx _ => ?_⟩
      have hle := hp.le x
      have hfreed : (Op.freeChunk 0x100000 0x1fffff).freed x = 0 := span_eq_zero.mpr (by omega)
      rw [own_empty x, hfreed] at hle
      omega
  have hends := h (stocked ++ [top]) ⟨⟨fun _ => rfl, stocked_steady.1.legal⟩,
    fun L hL => ⟨⟨fun _ => rfl, hfree L hL⟩, fun _ _ => trivial⟩⟩
  generalize runs (perform 12) (stocked ++ [top]) Ledger.empty = r at heval hends
  cases hends with
  | error _ => exact absurd heval (by simp)
  | @ok L hL =>
    obtain ⟨mem, hmem, -⟩ := hL
    dsimp only at heval
    rw [hmem] at heval
    exact absurd heval (by simp [fault])

end FreeVMS.Alloc
