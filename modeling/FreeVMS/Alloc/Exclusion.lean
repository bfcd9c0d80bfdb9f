import FreeVMS.Alloc.Ledger

/-!
# Removed memory stays removed

`objtable_setup_fixed` takes the range of a fixed memsection out of `vm_alloc` with
`sys$fpage_remove_chunk` and relies on it not being handed out again.  This is so when the
internal range does not meet the removed one: `sys$fpage_remove_chunk` looks at the free lists
only.
-/

namespace FreeVMS.Alloc

open Trace Cover Run

/-- The internal range meets `[base, end_]`. -/
def FpageAlloc.internalMeets (a : FpageAlloc) (base end_ : Nat) : Prop :=
  a.active = true ∧ a.base ≤ end_ ∧ base ≤ a.end_

theorem off_of_not_internalMeets {a : FpageAlloc} {base end_ : Nat}
    (h : ¬ a.internalMeets base end_) : Off base end_ (span a.base a.rangeSize) := by
  intro x h1 h2
  rw [FpageAlloc.rangeSize]
  cases hact : a.active with
  | false => exact span_zero _ _
  | true =>
    refine span_eq_zero.mpr fun hx => h ⟨hact, ?_, ?_⟩
    · exact Nat.le_trans hx.1 h2
    · rw [if_pos rfl] at hx
      omega

/-- The removal of `[base, end_]`, with nodes available. -/
def removal (base end_ : Nat) : Call := ⟨.removeChunk base end_, fun _ => true⟩

/-- A call that does not free memory of `[base, end_]`. -/
def Call.KeepsOut (bits base end_ : Nat) (c : Call) (L : Ledger) : Prop :=
  c.Steady bits L ∧ Off base end_ c.op.freed

/-- After the removal of `[base, end_]` the rest is as free as before, and no call of any later
    sequence hands out memory of the range unless it was freed again. -/
def StaysRemoved (bits base end_ : Nat) (L : Ledger) : Prop :=
  Ends (fun e => e = .panic) (fun L' =>
    (∀ x, ¬ (base ≤ x ∧ x ≤ end_) → own L'.alloc x = own L.alloc x) ∧
    ∀ later, Along (perform bits) (Call.KeepsOut bits base end_) later L' →
      Ends (fun e => e = .panic) (fun M => ∀ c : Call, c.KeepsOut bits base end_ M →
        Off base end_ (covers (c.handsOut bits M))) (runs (perform bits) later L'))
    (perform bits (removal base end_) L)

section

variable {bits base end_ : Nat} (hb : PageBits bits)

include hb

/-- The removal of a range that the internal range does not meet. -/
theorem perform_removal (hp : Paged bits base end_) {L : Ledger} (ha : AInv bits L.alloc)
    (hmeet : ¬ L.alloc.internalMeets base end_) :
    Ends (fun e => e = .panic) (fun L' => AInv bits L'.alloc ∧
      (∀ x, ¬ (base ≤ x ∧ x ≤ end_) → own L'.alloc x = own L.alloc x) ∧
      Off base end_ (own L'.alloc)) (perform bits (removal base end_) L) := by
  have hwp : Wp quietJudge ((removal base end_).op.exec quietEnv bits)
      ⟨L.alloc, (removal base end_).answers⟩ fun _ s' => AInv bits s'.alloc ∧
      (∀ x, ¬ (base ≤ x ∧ x ≤ end_) → own s'.alloc x = own L.alloc x) ∧
      Off base end_ (own s'.alloc) := by
    refine wp_bind ((fpageRemoveChunk_wp hb (quietContract bits True) hp
      ⟨L.alloc, fun _ => true⟩ (fun _ _ => rfl) ha).mono ?_)
    rintro _ s' ⟨-, h2, h3, h4⟩
    exact wp_pure ⟨h2, h3.2 trivial, h4 (off_of_not_internalMeets hmeet)⟩
  refine (perform_of_wp hwp).mono ?_
  rintro L' ⟨answers, h, -, -⟩
  exact h

/-- A call does not hand out what is not there. -/
theorem KeepsOut.step {c : Call} {L : Ledger} (hc : c.KeepsOut bits base end_ L)
    (ha : AInv bits L.alloc) (hoff : Off base end_ (own L.alloc)) :
    Ends (fun e => e = .panic) (fun L' => AInv bits L'.alloc ∧ Off base end_ (own L'.alloc) ∧
      Off base end_ (covers (c.handsOut bits L))) (perform bits c L) := by
  refine (perform_spec hb ha hc.1).mono fun L' h => ?_
  have hsum : ∀ x, base ≤ x → x ≤ end_ →
      own L'.alloc x + covers (c.handsOut bits L) x = 0 := by
    intro x h1 h2
    have hle := h.le x
    rw [hoff x h1 h2, hc.2 x h1 h2] at hle
    omega
  refine ⟨h.ainv, fun x h1 h2 => ?_, fun x h1 h2 => ?_⟩
  · have := hsum x h1 h2
    omega
  · have := hsum x h1 h2
    omega

theorem KeepsOut.handsOut_off {c : Call} {L : Ledger} (hc : c.KeepsOut bits base end_ L)
    (ha : AInv bits L.alloc) (hoff : Off base end_ (own L.alloc)) :
    Off base end_ (covers (c.handsOut bits L)) := by
  have hstep := KeepsOut.step hb hc ha hoff
  rw [perform] at hstep
  cases hr : (c.outcome bits L).result with
  | ok es =>
    rw [hr] at hstep
    cases hstep with
    | ok h => exact h.2.2
  | error e =>
    intro x _ _
    rw [Call.handsOut, hr]
    rfl

theorem runs_ainv (calls : List Call)
    (h : Along (perform bits) (Call.Steady bits) calls Ledger.empty) :
    Ends (fun e => e = .panic) (fun L => AInv bits L.alloc)
      (runs (perform bits) calls Ledger.empty) := by
  refine runs_induction (fun c L ha hc => ?_) calls Ledger.empty (ainv_empty bits) h
  exact (perform_spec hb ha hc).mono fun _ h => h.ainv

/-- What keeps out a range goes on keeping it out. -/
theorem runs_keepsOut (later : List Call) {L : Ledger} (ha : AInv bits L.alloc)
    (hoff : Off base end_ (own L.alloc))
    (h : Along (perform bits) (Call.KeepsOut bits base end_) later L) :
    Ends (fun e => e = .panic) (fun M => AInv bits M.alloc ∧ Off base end_ (own M.alloc))
      (runs (perform bits) later L) := by
  refine runs_induction (fun c M hI hc => ?_) later L ⟨ha, hoff⟩ h
  exact (KeepsOut.step hb hc hI.1 hI.2).mono fun _ h => ⟨h.1, h.2.1⟩

/-- **Removed memory stays removed.**  In every state reached, with an internal range that does
    not meet the range to be removed. -/
theorem removed_stays_removed (hp : Paged bits base end_) (calls : List Call)
    (h : Along (perform bits) (Call.Steady bits) calls Ledger.empty) :
    Ends (fun e => e = .panic) (fun L => ¬ L.alloc.internalMeets base end_ →
      StaysRemoved bits base end_ L) (runs (perform bits) calls Ledger.empty) := by
  refine (runs_ainv hb calls h).mono fun L ha hmeet => ?_
  refine (perform_removal hb hp ha hmeet).mono ?_
  rintro L' ⟨ha', hout, hoff⟩
  refine ⟨hout, fun later hlater => ?_⟩
  refine (runs_keepsOut hb later ha' hoff hlater).mono fun M hM c hc => ?_
  exact KeepsOut.handsOut_off hb hc hM.1 hM.2

end

/-- One megabyte is given to the allocator. -/
def stocked : List Call := [⟨.freeChunk 0x100000 0x1fffff, fun _ => true⟩]

theorem stocked_steady : Along (perform 12) (Call.Steady 12) stocked Ledger.empty :=
  ⟨⟨⟨⟨by decide, by decide⟩, by decide, by decide, fun x _ _ => own_empty x⟩,
    ⟨by decide, fun h => absurd h (by decide)⟩, fun _ _ => rfl⟩, fun _ _ => trivial⟩

theorem stocked_stays_removed : fault (runs (perform 12) stocked Ledger.empty) = none ∧
    Ends (fun e => e = .panic) (fun L => ¬ L.alloc.internalMeets 0x110000 0x11ffff →
      StaysRemoved 12 0x110000 0x11ffff L) (runs (perform 12) stocked Ledger.empty) := by
  have hbits : PageBits 12 := ⟨by decide, by decide⟩
  constructor
  · decide +kernel
  · exact removed_stays_removed hbits ⟨by decide, by decide⟩ stocked stocked_steady

/-- The block that `sys$fpage_alloc_internal` has made the internal range is not in the lists: a
    page of it that is removed is the next one to be handed out. -/
theorem internal_page_not_removed :
    ¬ ∀ base end_ calls, Paged 12 base end_ →
      Along (perform 12) (Call.Steady 12) calls Ledger.empty →
      Ends (fun e => e = .panic) (StaysRemoved 12 base end_)
        (runs (perform 12) calls Ledger.empty) := by
  intro h
  let next : Call := ⟨.allocInternal, fun _ => true⟩
  have heval : (match runs (perform 12) (stocked ++ [next]) Ledger.empty with
      | .ok L => match perform 12 (removal 0x101000 0x101fff) L with
        | .ok L' => next.handsOut 12 L'
        | .error _ => []
      | .error _ => []) = [(0x101000, 0x1000)] := by decide +kernel
  have hends := h 0x101000 0x101fff (stocked ++ [next]) ⟨by decide, by decide⟩
    ⟨stocked_steady.1, fun L _ => ⟨⟨trivial, trivial, fun hno => absurd hno (by decide)⟩,
      fun _ _ => trivial⟩⟩
  generalize runs (perform 12) (stocked ++ [next]) Ledger.empty = r at heval hends
  cases hends with
  | error _ => exact absurd heval (by simp)
  | @ok L hL =>
    unfold StaysRemoved at hL
    dsimp only at heval
    generalize perform 12 (removal 0x101000 0x101fff) L = r' at heval hL
    cases hL with
    | error _ => exact absurd heval (by simp)
    | @ok L' hL' =>
      dsimp only at heval
      cases hL'.2 [] trivial with
      | ok hoff =>
        have hnext := hoff next ⟨⟨trivial, trivial, fun hno => absurd hno (by decide)⟩,
          fun _ _ _ => rfl⟩ 0x101000 (by decide) (by decide)
        rw [heval] at hnext
        exact absurd hnext (by decide)

end FreeVMS.Alloc
