import FreeVMS.Kernel.Slab
import FreeVMS.Alloc.Spec

/-!
# What a request for a slab does

A request takes its pages off the internal ranges of both allocators.  The account of an
allocator is what is free in it and what it has given to the pools; a request leaves both
accounts as they are.
-/

namespace FreeVMS.Kernel

open Trace Cover Alloc

/-- The addresses of the pools on one side. -/
def poolCover (bits : Nat) (w : Side) (pools : List Pool) (x : Nat) : Nat :=
  weight (fun p => span (p.page w) (2 ^ bits) x) pools

/-- What is free on one side or in use as a pool. -/
def account (bits : Nat) (w : Side) (s : Sys) (x : Nat) : Nat :=
  own (s.side w) x + poolCover bits w s.pools x

/-- Both allocators are in order. -/
def SInv (bits : Nat) (s : Sys) : Prop := ∀ w, AInv bits (s.side w)

/-- A flexpage is filed in order: not nil, in the range that is being cleared, and in a list
    that exists. -/
def Event.Fine (bits : Nat) : Event → Prop
  | .starved _ => True
  | .filed _ lo hi f => ∃ i b, Block bits i f b ∧ i ≤ maxFpageOrder ∧ lo ≤ b ∧
      b + 2 ^ (i + bits) ≤ hi + 1

/-- The requests of `sys$fpage_clear_internal` leave something of the range. -/
def Event.Calm : Event → Prop
  | .starved _ => False
  | .filed _ _ _ _ => True

def sysJudge (bits : Nat) : Judge Event Fault where
  calm := Event.Calm
  fine := Event.Fine bits
  allowed e := e = .panic

section

variable {bits : Nat}

theorem forall_side {P : Side → Prop} (w : Side) : (∀ v, P v) ↔ P w ∧ P w.other := by
  constructor
  · exact fun h => ⟨h _, h _⟩
  · rintro ⟨h1, h2⟩ v
    cases w <;> cases v <;> assumption

theorem advance_advance (a : FpageAlloc) (m n : Nat) :
    (a.advance m).advance n = a.advance (m + n) := by
  simp only [FpageAlloc.advance, Nat.add_assoc]

/-- What one page off side `w` leaves alone. -/
structure SideOnly (w : Side) (s s' : Sys) : Prop where
  other : s'.side w.other = s.side w.other
  pools : s'.pools = s.pools
  objs : s'.objs = s.objs
  free : ∀ c, c ≠ .fp → s'.free c = s.free c

theorem SideOnly.setSide {w : Side} {s₀ s : Sys} (h : SideOnly w s₀ s) (a : FpageAlloc) :
    SideOnly w s₀ (s.setSide w a) :=
  ⟨(s.side_setSide_other w a).trans h.other, (s.setSide_pools w a).trans h.pools,
    (s.setSide_objs w a).trans h.objs, fun c hc => by rw [Sys.setSide_free]; exact h.free c hc⟩

/-- `sys$fpage_alloc_internal` only needs to give nodes back. -/
def pageBase (bits : Nat) (node : Prog Event Sys Fault Bool) (w : Side) (s₀ : Sys) :
    Base bits (sysEnv bits node w) (sysJudge bits) where
  Inv s := SideOnly w s₀ s
  acct s := own (s.side w)
  panic := rfl
  get_set a s := s.side_setSide w a
  inv_set a _ h := h.setSide a
  acct_set a s x := by
    show own ((s.setSide w a).side w) x + own (s.side w) x = own (s.side w) x + own a x
    rw [Sys.side_setSide]
    exact Nat.add_comm _ _
  slabFree s h := by
    refine wp_update ⟨⟨?_, h.pools, h.objs, fun c hc => ?_⟩, Sys.side_credit s .fp w, ?_⟩
    · rw [Sys.side_credit]
      exact h.other
    · show Function.update s.free .fp _ c = _
      rw [Function.update_of_ne hc]
      exact h.free c hc
    · show own ((s.credit .fp).side w) = own (s.side w)
      rw [Sys.side_credit]

/-- One page taken off side `w`. -/
structure PageTaken (bits : Nat) (w : Side) (s s' : Sys) (mem : Nat) : Prop where
  only : SideOnly w s s'
  ainv : AInv bits (s'.side w)
  whole : Span bits mem (mem + 2 ^ bits - 1)
  owned : ∀ x, own (s'.side w) x + span mem (2 ^ bits) x = own (s.side w) x
  bytes : listBytes (s'.side w) ≤ listBytes (s.side w)
  exact_ : (s.side w).active = true → (s.side w).base + 2 ^ bits < (s.side w).end_ →
    s'.side w = (s.side w).advance (2 ^ bits)

theorem pageTaken_wp (hb : PageBits bits) (node : Prog Event Sys Fault Bool) (w : Side) (s : Sys)
    (ha : AInv bits (s.side w)) :
    Wp (sysJudge bits) (fpageAllocInternal (sysEnv bits node w) (2 ^ bits)) s fun mem s' =>
      PageTaken bits w s s' mem := by
  refine (fpageAllocInternal_wp hb (pageBase bits node w s) s ⟨rfl, rfl, rfl, fun _ _ => rfl⟩ ha).mono ?_
  rintro mem s' ⟨h1, h2, h3, h4, h5, h6⟩
  refine ⟨h1, h2, h3, h4, h5, fun hact hlt => ?_⟩
  rw [h6 hact hlt]
  exact s.side_setSide w _

/-- A request that took `n` pages of each side. -/
structure Drawn (bits n : Nat) (s s' : Sys) : Prop where
  inv : SInv bits s'
  account : ∀ w, account bits w s' = account bits w s
  bytes : ∀ w, listBytes (s'.side w) ≤ listBytes (s.side w)
  exact_ : ∀ w, (s.side w).active = true → (s.side w).base + n * 2 ^ bits < (s.side w).end_ →
    s'.side w = (s.side w).advance (n * 2 ^ bits)
  objs : s'.objs = s.objs
  pools : ∃ t, s'.pools = s.pools ++ t

theorem Drawn.debit {n : Nat} {s s' : Sys} (h : Drawn bits n s s') (c : Cache) :
    Drawn bits n s (s'.debit c) := by
  refine ⟨fun w => ?_, fun w => ?_, fun w => ?_, fun w => ?_, h.objs, h.pools⟩
  · rw [Sys.side_debit]
    exact h.inv w
  · rw [← h.account w]
    funext x
    simp only [Kernel.account, Sys.side_debit]
    rfl
  · rw [Sys.side_debit]
    exact h.bytes w
  · rw [Sys.side_debit]
    exact h.exact_ w

theorem Drawn.refl {s : Sys} (h : SInv bits s) : Drawn bits 0 s s := by
  refine ⟨h, fun _ => rfl, fun _ => Nat.le_refl _, fun w _ _ => ?_, rfl, [], (List.append_nil _).symm⟩
  rw [Nat.zero_mul]
  rfl

/-- Both pages are taken; the rest of the system is as it was. -/
structure PagesTaken (bits : Nat) (s s' : Sys) (virt phys : Nat) : Prop where
  inv : SInv bits s'
  pools : s'.pools = s.pools
  objs : s'.objs = s.objs
  free : ∀ c, c ≠ .fp → s'.free c = s.free c
  owned : ∀ w x, own (s'.side w) x + span ((Pool.mk .fp virt phys).page w) (2 ^ bits) x =
    own (s.side w) x
  bytes : ∀ w, listBytes (s'.side w) ≤ listBytes (s.side w)
  exact_ : ∀ w, (s.side w).active = true → (s.side w).base + 2 ^ bits < (s.side w).end_ →
    s'.side w = (s.side w).advance (2 ^ bits)

theorem PageTaken.both {s s₁ s₂ : Sys} {virt phys : Nat} (h : PageTaken bits .vm s s₁ virt)
    (h' : PageTaken bits .pm s₁ s₂ phys) : PagesTaken bits s s₂ virt phys := by
  have hpm : s₁.pm = s.pm := h.only.other
  have hvm : s₂.vm = s₁.vm := h'.only.other
  refine ⟨fun w => ?_, h'.only.pools.trans h.only.pools, h'.only.objs.trans h.only.objs,
    fun c hc => (h'.only.free c hc).trans (h.only.free c hc), fun w => ?_, fun w => ?_, fun w => ?_⟩
  · cases w with
    | vm =>
      show AInv bits s₂.vm
      rw [hvm]
      exact h.ainv
    | pm => exact h'.ainv
  · cases w with
    | vm =>
      intro x
      show own s₂.vm x + _ = _
      rw [hvm]
      exact h.owned x
    | pm =>
      intro x
      show own s₂.pm x + _ = own s.pm x
      rw [← hpm]
      exact h'.owned x
  · cases w with
    | vm =>
      show listBytes s₂.vm ≤ _
      rw [hvm]
      exact h.bytes
    | pm =>
      show listBytes s₂.pm ≤ listBytes s.pm
      rw [← hpm]
      exact h'.bytes
  · cases w with
    | vm =>
      show _ → _ → s₂.vm = _
      rw [hvm]
      exact h.exact_
    | pm =>
      show s.pm.active = true → s.pm.base + _ < s.pm.end_ → s₂.pm = s.pm.advance _
      rw [← hpm]
      exact h'.exact_

/-- The pages become a pool. -/
theorem Drawn.addPool {n : Nat} {s s₁ s₂ : Sys} {virt phys : Nat} (h : PagesTaken bits s s₁ virt phys)
    (h' : Drawn bits n s₁ s₂) (c : Cache) (m : Nat) :
    Drawn bits (1 + n) s (s₂.addPool ⟨c, virt, phys⟩ m) := by
  refine ⟨fun w => ?_, fun w => ?_, fun w => ?_, fun w hact hlt => ?_, h'.objs.trans h.objs, ?_⟩
  · rw [Sys.side_addPool]
    exact h'.inv w
  · funext x
    have hpools : poolCover bits w (s₂.addPool ⟨c, virt, phys⟩ m).pools x =
        poolCover bits w s₂.pools x + span ((Pool.mk c virt phys).page w) (2 ^ bits) x := by
      show weight _ (s₂.pools ++ [⟨c, virt, phys⟩]) = _
      rw [weight_append, weight_cons, weight_nil]
      rfl
    have hmid := congrFun (h'.account w) x
    have howned := h.owned w x
    have hpage : (Pool.mk c virt phys).page w = (Pool.mk .fp virt phys).page w := by cases w <;> rfl
    simp only [Kernel.account, h.pools] at hmid
    simp only [Kernel.account, Sys.side_addPool, hpools, hpage]
    omega
  · rw [Sys.side_addPool]
    exact Nat.le_trans (h'.bytes w) (h.bytes w)
  · have hsplit : (1 + n) * 2 ^ bits = 2 ^ bits + n * 2 ^ bits := by ring
    rw [hsplit] at hlt ⊢
    have h1 := h.exact_ w hact (by omega)
    rw [Sys.side_addPool, h'.exact_ w (by rw [h1]; exact hact) (by
      rw [h1]
      show (s.side w).base + 2 ^ bits + n * 2 ^ bits < (s.side w).end_
      omega), h1, advance_advance]
  · obtain ⟨t, ht⟩ := h'.pools
    refine ⟨t ++ [⟨c, virt, phys⟩], ?_⟩
    show s₂.pools ++ _ = _
    rw [ht, h.pools, List.append_assoc]

theorem slabCount_pos (h12 : 12 ≤ bits) (c : Cache) : 0 < slabCount bits c := by
  have hpage : 2 ^ 12 ≤ 2 ^ bits := Nat.pow_le_pow_right (by decide) h12
  cases c with
  | fp => exact Nat.div_pos (by simp only [Cache.slabSize]; omega) (by decide)
  | ms => exact Nat.div_pos (by simp only [Cache.slabSize]; omega) (by decide)
  | bt => exact Nat.div_pos (by simp only [Cache.slabSize]; omega) (by decide)

section

variable (hb : PageBits bits)

include hb

/-- **`sys$memsection_create_cache`.**  `alloc .ms` is only asked for the memsection of a pool that
    can not hold its own. -/
theorem memsectionCreateCache_wp (alloc : Cache → Prog Event Sys Fault Bool) (c : Cache) (s : Sys)
    (hs : SInv bits s)
    (hms : c ≠ .ms → ∀ s₁, SInv bits s₁ → s₁.free .ms = s.free .ms →
      Wp (sysJudge bits) (alloc .ms) s₁ fun r s' => r = true ∧ Drawn bits (s.need .ms) s₁ s') :
    Wp (sysJudge bits) (memsectionCreateCache bits alloc c) s fun r s' =>
      r = some (slabCount bits c) ∧ Drawn bits (1 + if c = .ms then 0 else s.need .ms) s s' := by
  refine wp_bind ((pageTaken_wp hb (alloc .fp) .vm s (hs .vm)).mono ?_)
  intro virt s₁ h1
  have hv := h1.whole.base_aligned
  refine wp_ite (fun h => absurd h (hb.ne_invalidAddr hv)) fun _ => ?_
  refine wp_bind (wp_onlyIf (fun h => absurd hv h) fun _ => ?_)
  have hpm : AInv bits (s₁.side .pm) := by
    rw [show s₁.side .pm = s.side .pm from h1.only.other]
    exact hs .pm
  refine wp_bind ((pageTaken_wp hb (alloc .fp) .pm s₁ hpm).mono ?_)
  intro phys s₂ h2
  have hp := h2.whole.base_aligned
  have hboth := h1.both h2
  refine wp_ite (fun h => absurd h (hb.ne_invalidAddr hp)) fun _ => ?_
  refine wp_bind (wp_onlyIf (fun h => absurd hp h) fun _ => ?_)
  refine wp_ite (fun hc => ?_) fun hc => ?_
  · subst hc
    exact wp_bind (wp_update (wp_pure ⟨rfl, Drawn.addPool hboth (Drawn.refl hboth.inv) .ms _⟩))
  · rw [if_neg hc]
    refine wp_bind ((hms hc s₂ hboth.inv (hboth.free .ms (by decide))).mono ?_)
    rintro node s₃ ⟨rfl, h3⟩
    exact wp_bind (wp_update (wp_pure ⟨rfl, Drawn.addPool hboth h3 c _⟩))

variable (h12 : 12 ≤ bits)

include h12

/-- A request at one depth, from what `sys$memsection_create_cache` does with the next. -/
theorem slabCacheAlloc_step (depth : Nat) (c : Cache) (s : Sys) (hs : SInv bits s)
    (hms : c ≠ .ms → ∀ s₁, SInv bits s₁ → s₁.free .ms = s.free .ms →
      Wp (sysJudge bits) (slabCacheAlloc bits depth .ms) s₁ fun r s' =>
        r = true ∧ Drawn bits (s.need .ms) s₁ s') :
    Wp (sysJudge bits) (slabCacheAlloc bits (depth + 1) c) s fun r s' =>
      r = true ∧ Drawn bits (s.need c) s s' := by
  refine wp_bind (wp_read (wp_ite (fun hfree => ?_) fun hnone => ?_))
  · have hneed : s.need c = 0 := if_pos hfree
    rw [hneed]
    exact wp_bind (wp_update (wp_pure ⟨rfl, (Drawn.refl hs).debit c⟩))
  · have hneed : s.need c = 1 + if c = .ms then 0 else s.need .ms := by
      simp only [Sys.need]
      by_cases hc : c = .ms
      · subst hc
        simp only [hnone, if_true, if_false]
      · simp only [hnone, hc, if_false, if_true]
        split <;> rfl
    refine wp_bind ((memsectionCreateCache_wp hb (slabCacheAlloc bits depth) c s hs hms).mono ?_)
    rintro r s' ⟨rfl, h⟩
    obtain ⟨m, hm⟩ : ∃ m, slabCount bits c = m + 1 :=
      Nat.exists_eq_succ_of_ne_zero (Nat.pos_iff_ne_zero.mp (slabCount_pos h12 c))
    rw [hm, hneed]
    exact wp_bind (wp_update (wp_pure ⟨rfl, h.debit c⟩))

/-- **`sys$slab_cache_alloc`.**  The request is granted; both accounts are as they were. -/
theorem slabCacheAlloc_wp (depth : Nat) (c : Cache) (s : Sys) (hs : SInv bits s) :
    Wp (sysJudge bits) (slabCacheAlloc bits (depth + 2) c) s fun r s' =>
      r = true ∧ Drawn bits (s.need c) s s' := by
  refine slabCacheAlloc_step hb h12 (depth + 1) c s hs fun _ s₁ hs₁ hfree => ?_
  have hneed : s.need .ms = s₁.need .ms := by simp only [Sys.need, hfree]
  rw [hneed]
  exact slabCacheAlloc_step hb h12 depth .ms s₁ hs₁ fun hno => absurd rfl hno

end

end

end FreeVMS.Kernel
