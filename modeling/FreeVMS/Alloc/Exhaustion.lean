import FreeVMS.Alloc.Exclusion

/-!
# When there are no nodes

The requests for nodes of a call may be granted or not, in any pattern.  Calls that only give
memory back keep the invariant whatever the answers are; what is turned down stays in the
internal range, or is lost.  `sys$fpage_alloc` needs its nodes: when one is missing in the
splitting loop it returns a flexpage of twice the size of what is left, half of which is in
the free lists or was never free.
-/

namespace FreeVMS.Alloc

open Trace Cover Run

/-- No address is free twice, or free and handed out. -/
structure Separate (bits : Nat) (L : Ledger) : Prop where
  ainv : AInv bits L.alloc
  once : ∀ x, own L.alloc x ≤ 1
  apart : ∀ x, x ∈ L.handed → own L.alloc x = 0

/-- What `sys$fpage_alloc` returns lies in the flexpage it took off the lists, and is neither
    free nor handed out. -/
def AllocSound (bits size : Nat) (answers : Nat → Bool) (L : Ledger) : Prop :=
  let out := fpageAlloc quietEnv bits size ⟨L.alloc, answers⟩
  Ends (fun e => e = .panic) (fun f => f = nilpage ∨
    (∃ g, taken bits size L.alloc.flist = some g ∧ ∀ x, fpageSpan x f ≤ fpageSpan x g) ∧
    ∀ x, fpageSpan x f = 1 → own out.state.alloc x = 0 ∧ x ∉ L.handed) out.result

/-- When `sys$fpage_alloc_list` returns an empty list, nothing was taken. -/
def GivesBack (bits base end_ pagesize : Nat) (answers : Nat → Bool) (L : Ledger) : Prop :=
  let out := fpageAllocList quietEnv bits base end_ pagesize ⟨L.alloc, answers⟩
  Ends (fun e => e = .panic) (fun l => l = [] → ∀ x, own out.state.alloc x = own L.alloc x)
    out.result

section

variable {bits : Nat} (hb : PageBits bits)

theorem separate_empty : Separate bits Ledger.empty :=
  ⟨ainv_empty bits, fun x => by rw [own_empty]; exact Nat.zero_le _, fun x _ => own_empty x⟩

theorem Separate.step {c : Call} {L L' : Ledger} (hS : Separate bits L)
    (hlegal : c.op.Legal bits L.alloc) (h : Performed bits c L L') : Separate bits L' := by
  have hsum : ∀ x, own L'.alloc x + covers (c.handsOut bits L) x ≤ 1 := fun x =>
    Nat.le_trans (h.le x) (hlegal.apart hS.once x)
  refine ⟨h.ainv, fun x => ?_, fun x hx => ?_⟩
  · have := hsum x
    omega
  · rcases (h.handed x).mp hx with ⟨hold, hfreed⟩ | hnew
    · have hle := h.le x
      rw [hS.apart x hold, hfreed] at hle
      omega
    · have := hsum x
      omega

include hb

theorem Separate.allocSound {L : Ledger} (hS : Separate bits L) {size : Nat}
    (hsize : size ≤ 2 ^ 63) {answers : Nat → Bool} (hserved : ∀ k, answers k = true) :
    AllocSound bits size answers L := by
  refine ((fpageAlloc_wp hb (quietContract bits True) trivial ⟨L.alloc, answers⟩
    (fun _ => hserved) hS.ainv hsize).ends fun _ _ => trivial).mono ?_
  rintro f ⟨-, -, ⟨hnil, -, -⟩ | ⟨j, b, hf, ⟨i, g, order, htaken, -, hg, -, hj, -⟩, hacct, -⟩⟩
  · exact Or.inl hnil
  · refine Or.inr ⟨⟨g, htaken, fun x => ?_⟩, fun x hx => ?_⟩
    · rw [hf.span_eq hb, hg.span_eq hb]
      have hpow : 2 ^ (j + bits) ≤ 2 ^ (i + bits) := Nat.pow_le_pow_right (by decide) (by omega)
      exact span_mono (Nat.le_refl _) (Or.inl (by omega))
    · -- what is returned was free before, once
      rw [hf.span_eq hb] at hx
      have h1 := hacct x
      have h2 := hS.once x
      have h3 : (quietContract bits True).acct ⟨L.alloc, answers⟩ x = own L.alloc x := rfl
      have h4 : (quietContract bits True).acct
          (fpageAlloc quietEnv bits size ⟨L.alloc, answers⟩).state x =
          own (fpageAlloc quietEnv bits size ⟨L.alloc, answers⟩).state.alloc x := rfl
      rw [h3, h4, hx] at h1
      refine ⟨by omega, fun hhanded => ?_⟩
      have := hS.apart x hhanded
      omega

theorem Separate.givesBack {L : Ledger} (hS : Separate bits L) (base end_ pagesize : Nat)
    {answers : Nat → Bool} (hserved : ∀ k, answers k = true) :
    GivesBack bits base end_ pagesize answers L := by
  refine ((fpageAllocList_wp hb (quietContract bits True) trivial ⟨L.alloc, answers⟩
    (fun _ => hserved) hS.ainv base end_ pagesize).ends fun _ _ => trivial).mono ?_
  rintro l ⟨-, -, -, hacct, -⟩ rfl x
  exact hacct x

/-- Memory stays separate in every sequence of calls whose arguments are in order. -/
theorem runs_separate (calls : List Call)
    (h : Along (perform bits) (Call.Steady bits) calls Ledger.empty) :
    Ends (fun e => e = .panic) (Separate bits) (runs (perform bits) calls Ledger.empty) := by
  refine runs_induction (fun c L hS hc => ?_) calls Ledger.empty separate_empty h
  exact (perform_spec hb hS.ainv hc).mono fun _ => hS.step hc.legal

/-- **Node exhaustion.**  In every sequence of calls in which the functions that take memory out
    of the free lists get their nodes, whatever the other calls get. -/
theorem runs_allocSound (calls : List Call)
    (h : Along (perform bits) (Call.Steady bits) calls Ledger.empty) :
    Ends (fun e => e = .panic) (fun L => ∀ answers : Nat → Bool, (∀ k, answers k = true) →
      (∀ size ≤ 2 ^ 63, AllocSound bits size answers L) ∧
      ∀ base end_ pagesize, GivesBack bits base end_ pagesize answers L)
      (runs (perform bits) calls Ledger.empty) := by
  refine (runs_separate hb calls h).mono fun L hS answers hserved => ⟨fun size hsize => ?_, fun base end_ pagesize => ?_⟩
  · exact hS.allocSound hb hsize hserved
  · exact hS.givesBack hb base end_ pagesize hserved

end

theorem stocked_allocSound : fault (runs (perform 12) stocked Ledger.empty) = none ∧
    Ends (fun e => e = .panic) (fun L => ∀ answers : Nat → Bool, (∀ k, answers k = true) →
      (∀ size ≤ 2 ^ 63, AllocSound 12 size answers L) ∧
      ∀ base end_ pagesize, GivesBack 12 base end_ pagesize answers L)
      (runs (perform 12) stocked Ledger.empty) := by
  have hbits : PageBits 12 := ⟨by decide, by decide⟩
  constructor
  · decide +kernel
  · exact runs_allocSound hbits stocked stocked_steady

/-- A page is wanted, one megabyte is free, and there is no node for the first half that is split
    off: the result is the two megabytes at address 0. -/
theorem denied_split_doubles :
    ¬ ∀ calls size answers, size ≤ 2 ^ 63 →
      Along (perform 12) (Call.Steady 12) calls Ledger.empty →
      Ends (fun e => e = .panic) (AllocSound 12 size answers)
        (runs (perform 12) calls Ledger.empty) := by
  intro h
  have heval : (match runs (perform 12) stocked Ledger.empty with
      | .ok L => match (fpageAlloc quietEnv 12 0x1000 ⟨L.alloc, fun _ => false⟩).result with
        | .ok f => some (f, taken 12 0x1000 L.alloc.flist)
        | .error _ => none
      | .error _ => none) =
      some (l4FpageLog2 0x100000 21, some (l4FpageLog2 0x100000 20)) := by decide +kernel
  have hends := h stocked 0x1000 (fun _ => false) (by decide) stocked_steady
  generalize runs (perform 12) stocked Ledger.empty = r at heval hends
  cases hends with
  | error _ => exact absurd heval (by simp)
  | @ok L hL =>
    unfold AllocSound at hL
    dsimp only at heval hL
    generalize fpageAlloc quietEnv 12 0x1000 ⟨L.alloc, fun _ => false⟩ = out at heval hL
    obtain ⟨log, state, result⟩ := out
    dsimp only at heval hL
    cases hL with
    | error _ => exact absurd heval (by simp)
    | @ok f hf =>
      simp only [Option.some.injEq, Prod.mk.injEq] at heval
      rw [heval.1, heval.2] at hf
      rcases hf with hnil | ⟨⟨g, hg, hle⟩, -⟩
      · exact absurd hnil (by decide)
      · obtain rfl := Option.some.inj hg
        exact absurd (hle 0) (by decide)

end FreeVMS.Alloc
