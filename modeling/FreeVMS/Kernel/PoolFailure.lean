import FreeVMS.Kernel.Reentry

/-!
# When no pool can be made

`sys$memsection_create_cache` gives `NULL` when the range that a page should come from is shorter
than a page.  The page of virtual memory that it holds by then goes back with
`sys$fpage_free_internal`, which first clears the range that this page was taken from and then
writes the page over it.  Clearing needs nodes; where they run out the rest of the range is still
there when the page is written over it.
-/

namespace FreeVMS.Kernel

open Trace Cover Alloc

/-- The test of `sys$fpage_alloc_internal`: `[base, end_]` is shorter than a page. -/
def Short (bits base end_ : Nat) : Prop := wordAdd (wordSub end_ base) 1 < 2 ^ bits

instance (bits base end_ : Nat) : Decidable (Short bits base end_) :=
  inferInstanceAs (Decidable (_ < _))

/-- The range that the next page is taken from: the internal range, or the first block of the
    lowest order, which becomes the internal range. -/
def nextRange (a : FpageAlloc) : Option (Nat × Nat) :=
  if a.active then some (a.base, a.end_)
  else if firstUsed a.flist maxFpageOrder 0 = maxFpageOrder then none
  else (a.flist (firstUsed a.flist maxFpageOrder 0)).head?.map fun f => (l4Address f, fpEnd f)

/-- How many flexpages `[base, end_]` is cut into, `sys$biggest_fpage` by `sys$biggest_fpage`. -/
def cuts (bits end_ : Nat) : (fuel base : Nat) → Nat
  | 0, _ => 0
  | fuel + 1, base =>
      if base < end_ then
        cuts bits end_ fuel (base + l4Size (biggestFpage bits base base end_)) + 1
      else 0

/-- A page taken off the range does not leave a range shorter than a page. -/
def Steady (bits base end_ : Nat) : Prop :=
  wordAdd base (2 ^ bits) < end_ → ¬ Short bits (wordAdd base (2 ^ bits)) end_

instance (bits base end_ : Nat) : Decidable (Steady bits base end_) :=
  inferInstanceAs (Decidable (_ → _))

/-- The nodes that are free once a page of virtual memory is taken: one more when its range comes
    from a list. -/
def spareNodes (s : Sys) : Nat := s.free .fp + if s.vm.active then 0 else 1

/-- What the two ranges must be like for a failure to be undone.  No page is the one at
    `INVALID_ADDR`.  When only the physical range is too short, the rest of the virtual range is
    whole pages below the last word and there is a node for each of its flexpages; when both ranges
    give a page and the pool needs a descriptor from another pool, neither range is cut down to less
    than a page. -/
def Recovers (bits : Nat) (sc : Cache) (s : Sys) : Prop :=
  ∀ vb ve, nextRange s.vm = some (vb, ve) → ¬ Short bits vb ve → vb ≠ invalidAddr ∧
    ∀ pb pe, nextRange s.pm = some (pb, pe) → vb % 2 ^ bits = 0 →
      (Short bits pb pe → vb ≤ ve ∧ (ve + 1) % 2 ^ bits = 0 ∧ ve + 1 < wordSize ∧
        cuts bits ve wordSize (vb + 2 ^ bits) ≤ spareNodes s) ∧
      (¬ Short bits pb pe → pb ≠ invalidAddr ∧
        (sc ≠ .ms → s.free .ms = 0 → Steady bits vb ve ∧ Steady bits pb pe))

/-- When `sys$memsection_create_cache` gives `NULL`, the same addresses are free in each allocator
    as before. -/
def Atomic (bits depth : Nat) (sc : Cache) (s : Sys) : Prop :=
  (memsectionCreateCache bits (slabCacheAlloc bits depth) sc s).result = .ok none →
    ∀ w x, 0 < own ((memsectionCreateCache bits (slabCacheAlloc bits depth) sc s).state.side w) x ↔
      0 < own (s.side w) x

/-- The internal range is whole pages or shorter than a page. -/
def Even (bits : Nat) (a : FpageAlloc) : Prop :=
  a.active = true → Span bits a.base a.end_ ∨ Short bits a.base a.end_

/-- A judge that only looks at the faults. -/
def anyRun (A : Fault → Prop) : Judge Event Fault where
  calm _ := True
  fine _ := True
  allowed := A

section

variable {bits : Nat}

/-! ### Ranges -/

theorem not_short {base end_ : Nat} (hle : base ≤ end_) (hw : end_ < wordSize) (hpos : 0 < 2 ^ bits)
    (h : ¬ Short bits base end_) : base + 2 ^ bits ≤ end_ + 1 := by
  rw [Short, wordSub_of_le hle (by omega) (by omega), wordAdd] at h
  rcases Nat.lt_or_ge (end_ - base + 1) wordSize with hlt | hge
  · rw [Nat.mod_eq_of_lt hlt] at h
    omega
  · rw [show end_ - base + 1 = wordSize by omega, Nat.mod_self] at h
    exact absurd hpos h

theorem not_short_of_span {base end_ : Nat} (h : Span bits base end_) : ¬ Short bits base end_ := by
  have hlt := h.lt
  have hfits := h.fits
  have hpage := h.page_le
  rw [Short, wordSub_of_le hlt.le (by omega) (by omega), wordAdd, Nat.mod_eq_of_lt (by omega)]
  omega

/-- The rest of a range of whole pages is whole pages. -/
theorem span_rest {base end_ : Nat} (h : Span bits base end_) (hlt : base + 2 ^ bits < end_) :
    Span bits (base + 2 ^ bits) end_ := by
  have hpos : 0 < 2 ^ bits := by positivity
  refine ⟨?_, h.end_aligned, hlt, h.fits, fun h0 => by omega⟩
  rw [Nat.add_mod_right]
  exact h.base_aligned

theorem steady_of_span {base end_ : Nat} (h : Span bits base end_) : Steady bits base end_ := by
  have hpage := h.page_le
  have hfits := h.fits
  have hadd : wordAdd base (2 ^ bits) = base + 2 ^ bits := by
    rw [wordAdd, Nat.mod_eq_of_lt (by omega)]
  rw [Steady, hadd]
  exact fun hlt => not_short_of_span (span_rest h hlt)

/-- A block that becomes the internal range is whole pages. -/
theorem nextRange_span (hb : PageBits bits) {a : FpageAlloc} (hf : Filed bits a.flist)
    (hact : a.active = false) {b e : Nat} (h : nextRange a = some (b, e)) : Span bits b e := by
  rw [nextRange, hact, if_neg Bool.false_ne_true] at h
  split at h
  · exact nomatch h
  · obtain ⟨f, hhead, heq⟩ := Option.map_eq_some_iff.mp h
    obtain ⟨c, hblock⟩ := hf _ f (List.mem_of_mem_head? hhead)
    obtain ⟨rfl, rfl⟩ := Prod.mk.inj heq
    rw [hblock.address hb]
    exact hblock.span hb

theorem nextRange_active {a : FpageAlloc} (hact : a.active = true) :
    nextRange a = some (a.base, a.end_) := by
  rw [nextRange, if_pos hact]

/-! ### Taking a page -/

/-- The system when side `w` has an internal range. -/
structure Armed (bits : Nat) (w : Side) (s s₁ : Sys) : Prop where
  active : (s₁.side w).active = true
  filed : Filed bits (s₁.side w).flist
  range : nextRange (s.side w) = some ((s₁.side w).base, (s₁.side w).end_)
  owned : ∀ x, own (s₁.side w) x = own (s.side w) x
  other : s₁.side w.other = s.side w.other
  nodes : s₁.free .fp = s.free .fp + if (s.side w).active then 0 else 1
  descriptors : s₁.free .ms = s.free .ms
  same : (s.side w).active = true → s₁ = s

/-- A page off the range, as `sys$fpage_alloc_internal` takes it. -/
def lessPage (bits : Nat) (a : FpageAlloc) : FpageAlloc :=
  { a with
    base := wordAdd a.base (2 ^ bits)
    active := if wordAdd a.base (2 ^ bits) ≥ a.end_ then false else a.active }

theorem refillInternal_armed (hb : PageBits bits) {A : Fault → Prop} {node : Prog Event Sys Fault Bool}
    {w : Side} {s : Sys} {Q : Unit → Sys → Prop} (hf : Filed bits (s.side w).flist)
    (hact : (s.side w).active = false) (hpanic : nextRange (s.side w) = none → A .panic)
    (h : ∀ s₁, Armed bits w s s₁ → Q () s₁) :
    Wp (anyRun A) (refillInternal (sysEnv bits node w)) s Q := by
  have hnext : nextRange (s.side w) =
      if firstUsed (s.side w).flist maxFpageOrder 0 = maxFpageOrder then none
      else ((s.side w).flist (firstUsed (s.side w).flist maxFpageOrder 0)).head?.map
        fun f => (l4Address f, fpEnd f) := by
    rw [nextRange, hact, if_neg Bool.false_ne_true]
  obtain ⟨-, hle, -⟩ := firstUsed_spec (s.side w).flist maxFpageOrder 0
  refine wp_bind (wp_alloc ?_)
  simp only [show (sysEnv bits node w).get s = s.side w from rfl]
  generalize firstUsed (s.side w).flist maxFpageOrder 0 = i at hnext hle ⊢
  refine wp_ite (fun hi => wp_raise (hpanic (by rw [hnext, if_pos hi]))) fun hi => ?_
  rw [if_neg hi] at hnext
  have hi' : i < maxFpageOrder + 1 := by omega
  cases hl : (s.side w).flist i with
  | nil => exact wp_raise (hpanic (by rw [hnext, hl]; rfl))
  | cons f rest =>
    rw [hl] at hnext
    obtain ⟨b, hblock⟩ := hf i f (by rw [hl]; exact List.mem_cons_self)
    refine wp_bind (wp_modify (wp_update (h _ ?_)))
    show Armed bits w s ((s.setSide w (((s.side w).relist i rest).withRange (l4Address f)
      (fpEnd f))).credit .fp)
    refine ⟨?_, ?_, ?_, fun x => ?_, ?_, ?_, ?_, fun hno => ?_⟩
    · rw [Sys.side_credit, Sys.side_setSide]
      rfl
    · rw [Sys.side_credit, Sys.side_setSide]
      exact hf.tail hl
    · rw [Sys.side_credit, Sys.side_setSide, hnext]
      rfl
    · rw [Sys.side_credit, Sys.side_setSide]
      have ht := own_tail (s.side w) hl hi' x
      have hw := own_withRange ((s.side w).relist i rest) (l4Address f) (fpEnd f) x
      have hz : ((s.side w).relist i rest).rangeSize = 0 := by
        show (if (s.side w).active = true then _ else 0) = 0
        rw [hact]
        rfl
      have hsz : fpEnd f + 1 - l4Address f = 2 ^ (i + bits) := by
        rw [hblock.address hb, hblock.fpEnd_eq hb, Nat.add_sub_cancel_left]
      rw [hz, span_zero, hsz] at hw
      rw [hblock.span_eq hb, ← hblock.address hb] at ht
      omega
    · rw [Sys.side_credit, Sys.side_setSide_other]
    · rw [Sys.credit_free_self, Sys.setSide_free, hact]
      rfl
    · rw [Sys.credit_free_of_ne _ (by decide), Sys.setSide_free]
    · exact absurd (hact.symm.trans hno) Bool.false_ne_true

theorem Armed.refl {w : Side} {s : Sys} (hf : Filed bits (s.side w).flist)
    (hact : (s.side w).active = true) : Armed bits w s s :=
  ⟨hact, hf, nextRange_active hact, fun _ => rfl, rfl, by rw [hact]; rfl, rfl, fun _ => rfl⟩

/-- **`sys$fpage_alloc_internal`.**  A range that is too short stays as it is. -/
theorem fpageAllocInternal_armed (hb : PageBits bits) {A : Fault → Prop}
    {node : Prog Event Sys Fault Bool} {w : Side} {s : Sys} {Q : Nat → Sys → Prop}
    (hf : Filed bits (s.side w).flist) (hpanic : nextRange (s.side w) = none → A .panic)
    (hshort : ∀ s₁, Armed bits w s s₁ → Short bits (s₁.side w).base (s₁.side w).end_ →
      Q invalidAddr s₁)
    (hpage : ∀ s₁, Armed bits w s s₁ → ¬ Short bits (s₁.side w).base (s₁.side w).end_ →
      Q (s₁.side w).base (s₁.setSide w (lessPage bits (s₁.side w)))) :
    Wp (anyRun A) (fpageAllocInternal (sysEnv bits node w) (2 ^ bits)) s Q := by
  have htake : ∀ s₁, Armed bits w s s₁ → Wp (anyRun A) (do
      let a ← (sysEnv bits node w).alloc
      if wordAdd (wordSub a.end_ a.base) 1 < 2 ^ bits then return invalidAddr
      else
        (sysEnv bits node w).modify fun a => { a with
          base := wordAdd a.base (2 ^ bits)
          active := if wordAdd a.base (2 ^ bits) ≥ a.end_ then false else a.active }
        return a.base) s₁ Q := by
    intro s₁ h
    refine wp_bind (wp_alloc (wp_ite (fun hs => wp_pure (hshort s₁ h hs)) fun hs => ?_))
    exact wp_bind (wp_modify (wp_pure (hpage s₁ h hs)))
  refine wp_bind (wp_alloc (wp_bind (wp_onlyIf (fun hact => ?_) fun hact => ?_)))
  · exact refillInternal_armed hb hf hact hpanic htake
  · exact htake s (Armed.refl hf (Bool.of_not_eq_false hact))

/-! ### Clearing with the nodes that are there -/

/-- `n` flexpages were filed off the virtual range. -/
structure Cleared (bits n : Nat) (s s' : Sys) : Prop where
  draining : Draining bits s'.vm
  owned : ∀ x, own s'.vm x = own s.vm x
  pm : s'.pm = s.pm
  nodes : s'.free .fp + n = s.free .fp
  base : s.vm.base ≤ s'.vm.base

theorem Cleared.refl {s : Sys} (h : Draining bits s.vm) : Cleared bits 0 s s :=
  ⟨h, fun _ => rfl, rfl, rfl, Nat.le_refl _⟩

theorem Cleared.trans {m n : Nat} {s s' s'' : Sys} (h : Cleared bits m s s')
    (h' : Cleared bits n s' s'') : Cleared bits (m + n) s s'' :=
  ⟨h'.draining, fun x => (h'.owned x).trans (h.owned x), h'.pm.trans h.pm,
    by have := h.nodes; have := h'.nodes; omega, h.base.trans h'.base⟩

/-- The virtual allocator, linked at depth `depth`. -/
def vmEnv (bits depth : Nat) : Env Event Sys := sysEnv bits (slabCacheAlloc bits depth .fp) .vm

/-- The first flexpage of the range moved to its list. -/
theorem Cleared.one (hb : PageBits bits) {s : Sys} (hdr : Draining bits s.vm) {i : Nat}
    (hblock : Block bits i (biggestFpage bits s.vm.base s.vm.base s.vm.end_) s.vm.base)
    (htop : s.vm.base + 2 ^ (i + bits) ≤ s.vm.end_ + 1) (hfree : 0 < s.free .fp) :
    Cleared bits 1 s ((s.debit .fp).setSide .vm ((s.vm.file i
      (biggestFpage bits s.vm.base s.vm.base s.vm.end_)).advance (2 ^ (i + bits)))) := by
  refine ⟨hdr.file_advance hblock htop, own_file_advance hb hdr.active hblock htop, rfl, ?_,
    Nat.le_add_right _ _⟩
  rw [Sys.setSide_free, Sys.debit_free_self]
  omega

theorem clearing_wp {A : Fault → Prop} {node : Prog Event Sys Fault Bool} {w : Side} {s : Sys}
    {Q : Unit → Sys → Prop} (h : Q () s) : Wp (anyRun A) (sysEnv bits node w).clearing s Q :=
  wp_bind (wp_read (wp_onlyIf (fun _ => wp_emit fun _ => ⟨trivial, h⟩) fun _ => h))

/-- One iteration of the loop of `sys$fpage_clear_internal` that finds a node. -/
theorem clearLoop_cut (hb : PageBits bits) {A : Fault → Prop} {depth fuel : Nat} {s : Sys}
    {Q : Unit → Sys → Prop} (hdr : Draining bits s.vm) (hlt : s.vm.base < s.vm.end_)
    (hfree : 0 < s.free .fp)
    (h : ∀ s', Cleared bits 1 s s' → s'.vm.end_ = s.vm.end_ → s'.vm.base =
      s.vm.base + l4Size (biggestFpage bits s.vm.base s.vm.base s.vm.end_) →
      s.vm.base < s'.vm.base → Wp (anyRun A) (clearLoop (vmEnv bits (depth + 1)) bits fuel) s' Q) :
    Wp (anyRun A) (clearLoop (vmEnv bits (depth + 1)) bits (fuel + 1)) s Q := by
  obtain ⟨i, hblock, htop⟩ := biggestFpage_spec hb (hdr.span hlt)
  have hsize := hblock.size hb
  have hpos : 0 < 2 ^ (i + bits) := by positivity
  have hfits := hdr.fits
  have hadd : wordAdd s.vm.base (l4Size (biggestFpage bits s.vm.base s.vm.base s.vm.end_)) =
      s.vm.base + 2 ^ (i + bits) := by
    rw [hsize, wordAdd, Nat.mod_eq_of_lt (by omega)]
  refine wp_bind (wp_alloc (wp_ite (fun _ => ?_) fun hge => absurd hlt hge))
  refine wp_bind (clearing_wp (wp_bind (wp_bind (wp_read (wp_ite (fun _ => ?_) fun hno => ?_)))))
  · refine wp_bind (wp_update (wp_pure (wp_bind (wp_alloc (wp_bind (wp_insertTail hb hblock ?_))))))
    refine wp_bind (wp_emit fun _ => ⟨trivial, wp_bind (wp_modify ?_)⟩)
    have hstate : (vmEnv bits (depth + 1)).set
        { s.vm.file i (biggestFpage bits s.vm.base s.vm.base s.vm.end_) with
          base := wordAdd s.vm.base (l4Size (biggestFpage bits s.vm.base s.vm.base s.vm.end_)) }
        ((s.debit .fp).setSide .vm (s.vm.file i
          (biggestFpage bits s.vm.base s.vm.base s.vm.end_))) =
        (s.debit .fp).setSide .vm ((s.vm.file i
          (biggestFpage bits s.vm.base s.vm.base s.vm.end_)).advance (2 ^ (i + bits))) := by
      rw [hadd]
      rfl
    refine Eq.mpr (congrArg (fun t => Wp (anyRun A) _ t Q) hstate) (h _ ?_ rfl ?_ ?_)
    · exact Cleared.one hb hdr hblock htop hfree
    · rw [hsize]
      rfl
    · exact Nat.lt_add_of_pos_right hpos
  · exact absurd hfree hno

/-- **The loop of `sys$fpage_clear_internal`.**  It files one flexpage for each node, up to `n`. -/
theorem clearLoop_files (hb : PageBits bits) {A : Fault → Prop} {depth : Nat} {Q : Unit → Sys → Prop} :
    ∀ (n fuel : Nat) (s : Sys), Draining bits s.vm → s.vm.end_ + 1 - s.vm.base < fuel →
      n ≤ s.free .fp → n ≤ cuts bits s.vm.end_ fuel s.vm.base →
      (∀ fuel' s', Cleared bits n s s' → s'.vm.end_ + 1 - s'.vm.base < fuel' →
        cuts bits s'.vm.end_ fuel' s'.vm.base + n = cuts bits s.vm.end_ fuel s.vm.base →
        Wp (anyRun A) (clearLoop (vmEnv bits (depth + 1)) bits fuel') s' Q) →
      Wp (anyRun A) (clearLoop (vmEnv bits (depth + 1)) bits fuel) s Q := by
  intro n
  induction n with
  | zero => exact fun fuel s hdr hf _ _ h => h fuel s (Cleared.refl hdr) hf rfl
  | succ n ih =>
    intro fuel s hdr hf hn hcuts h
    obtain ⟨fuel, rfl⟩ := Nat.exists_eq_succ_of_ne_zero (show fuel ≠ 0 by omega)
    have hlt : s.vm.base < s.vm.end_ := by
      by_contra hge
      rw [cuts, if_neg hge] at hcuts
      omega
    rw [cuts, if_pos hlt] at hcuts h
    refine clearLoop_cut hb hdr hlt (by omega) fun s₁ h1 hend hbase hmore => ?_
    have hnodes := h1.nodes
    rw [← hbase, ← hend] at hcuts h
    refine ih fuel s₁ h1.draining (by omega) (by omega) (by omega) fun fuel' s' h2 hf' heq => ?_
    exact h fuel' s' (by rw [Nat.add_comm]; exact h1.trans h2) hf' (by omega)

/-! ### Giving the page back -/

/-- With a node for each flexpage the range is cleared. -/
theorem clearLoop_all (hb : PageBits bits) {A : Fault → Prop} {depth fuel : Nat} {s : Sys}
    (hdr : Draining bits s.vm) (hf : s.vm.end_ + 1 - s.vm.base < fuel)
    (hn : cuts bits s.vm.end_ fuel s.vm.base ≤ s.free .fp) :
    Wp (anyRun A) (clearLoop (vmEnv bits (depth + 1)) bits fuel) s fun _ s' =>
      s'.vm.active = false ∧ (∀ x, own s'.vm x = own s.vm x) ∧ s'.pm = s.pm := by
  refine clearLoop_files hb _ fuel s hdr hf hn (Nat.le_refl _) fun fuel' s' h hf' hcuts => ?_
  obtain ⟨fuel', rfl⟩ := Nat.exists_eq_succ_of_ne_zero (show fuel' ≠ 0 by omega)
  have hge : ¬ s'.vm.base < s'.vm.end_ := by
    intro hlt
    rw [cuts, if_pos hlt] at hcuts
    omega
  refine wp_bind (wp_alloc (wp_ite (fun hlt => absurd hlt hge) fun _ => wp_modify ?_))
  refine ⟨rfl, fun x => ?_, h.pm⟩
  exact (own_deactivate h.draining.active (h.draining.empty hb hge) x).trans (h.owned x)

/-- A page taken off a range of whole pages: what is left is whole pages, or nothing. -/
theorem lessPage_draining {a : FpageAlloc} (hf : Filed bits a.flist) (hact : a.active = true)
    (hbase : a.base % 2 ^ bits = 0) (hend : (a.end_ + 1) % 2 ^ bits = 0)
    (hfits : a.end_ + 1 < wordSize) (hpage : a.base + 2 ^ bits ≤ a.end_ + 1) :
    Draining bits (a.advance (2 ^ bits)) := by
  have hpos : 0 < 2 ^ bits := by positivity
  refine ⟨hf, hact, ?_, hend, hpage, hfits, fun h0 => ?_⟩
  · show (a.base + 2 ^ bits) % 2 ^ bits = 0
    rw [Nat.add_mod_right]
    exact hbase
  · have h0' : a.base + 2 ^ bits = 0 := h0
    omega

theorem lessPage_eq {a : FpageAlloc} (hact : a.active = true) (hfits : a.end_ + 1 < wordSize)
    (hpage : a.base + 2 ^ bits ≤ a.end_ + 1) :
    lessPage bits a = { a.advance (2 ^ bits) with active := decide (a.base + 2 ^ bits < a.end_) } := by
  have hadd : wordAdd a.base (2 ^ bits) = a.base + 2 ^ bits := by
    rw [wordAdd, Nat.mod_eq_of_lt (by omega)]
  rw [lessPage, hadd, hact]
  by_cases hlt : a.base + 2 ^ bits < a.end_
  · rw [if_neg (by omega), decide_eq_true hlt]
    rfl
  · rw [if_pos (by omega), decide_eq_false hlt]
    rfl

theorem lessPage_of_lt {a : FpageAlloc} (hact : a.active = true) (hfits : a.end_ + 1 < wordSize)
    (hlt : a.base + 2 ^ bits < a.end_) : lessPage bits a = a.advance (2 ^ bits) := by
  rw [lessPage_eq hact hfits (by omega), decide_eq_true hlt, ← hact]
  rfl

/-- `sys$fpage_free_internal` clears a range that is active, then writes over it. -/
theorem fpageFreeInternal_over {A : Fault → Prop} {depth base end_ : Nat} {s : Sys}
    {Q : Unit → Sys → Prop} (hact : s.vm.active = true)
    (h : Wp (anyRun A) (clearLoop (vmEnv bits depth) bits wordSize) s fun _ s' =>
      Q () (s'.setSide .vm (s'.vm.withRange base end_))) :
    Wp (anyRun A) (fpageFreeInternal (vmEnv bits depth) bits base end_) s Q := by
  refine wp_bind (wp_alloc (wp_bind (wp_onlyIf (fun _ => ?_) fun hno => absurd hact hno)))
  refine wp_bind (wp_alloc (wp_onlyIf (fun _ => ?_) fun hno => absurd hact hno))
  exact h.mono fun _ s' hQ => wp_modify hQ

theorem fpageFreeInternal_idle {A : Fault → Prop} {depth base end_ : Nat} {s : Sys}
    {Q : Unit → Sys → Prop} (hact : s.vm.active = false)
    (h : Q () (s.setSide .vm (s.vm.withRange base end_))) :
    Wp (anyRun A) (fpageFreeInternal (vmEnv bits depth) bits base end_) s Q := by
  refine wp_bind (wp_alloc (wp_bind (wp_onlyIf (fun hyes => ?_) fun _ => wp_modify h)))
  exact absurd (hact.symm.trans hyes) Bool.false_ne_true

/-- **`sys$fpage_free_internal` of the page just taken.**  Enough nodes: the page and the rest of
    its range are free again. -/
theorem fpageFreeInternal_restores (hb : PageBits bits) {A : Fault → Prop} {depth : Nat} {s : Sys}
    {a : FpageAlloc} (hf : Filed bits a.flist) (hact : a.active = true)
    (hbase : a.base % 2 ^ bits = 0) (hend : (a.end_ + 1) % 2 ^ bits = 0)
    (hfits : a.end_ + 1 < wordSize) (hpage : a.base + 2 ^ bits ≤ a.end_ + 1)
    (hvm : s.vm = lessPage bits a)
    (hn : cuts bits a.end_ wordSize (a.base + 2 ^ bits) ≤ s.free .fp) :
    Wp (anyRun A) (fpageFreeInternal (vmEnv bits (depth + 1)) bits a.base
      (wordAdd a.base (2 ^ bits - 1))) s fun _ s' => (∀ x, own s'.vm x = own a x) ∧ s'.pm = s.pm := by
  have hpos : 0 < 2 ^ bits := by positivity
  have hdr := lessPage_draining hf hact hbase hend hfits hpage
  have hlast : wordAdd a.base (2 ^ bits - 1) = a.base + (2 ^ bits - 1) := by
    rw [wordAdd, Nat.mod_eq_of_lt (by omega)]
  -- the page is written over a range that is no longer active
  have hset : ∀ s₂ : Sys, s₂.vm.active = false →
      (∀ x, own s₂.vm x = own (a.advance (2 ^ bits)) x) → s₂.pm = s.pm →
      (∀ x, own (s₂.vm.withRange a.base (a.base + (2 ^ bits - 1))) x = own a x) ∧ s₂.pm = s.pm := by
    intro s₂ hact₂ hown hpm
    refine ⟨fun x => ?_, hpm⟩
    have h1 := own_withRange s₂.vm a.base (a.base + (2 ^ bits - 1)) x
    have h2 := own_advance a hact hpage x
    rw [FpageAlloc.rangeSize, hact₂, if_neg Bool.false_ne_true, span_zero, hown x,
      show a.base + (2 ^ bits - 1) + 1 - a.base = 2 ^ bits by omega] at h1
    omega
  rw [hlast]
  by_cases hlt : a.base + 2 ^ bits < a.end_
  · rw [lessPage_of_lt hact hfits hlt] at hvm
    refine fpageFreeInternal_over (by rw [hvm]; exact hact) ?_
    refine (clearLoop_all hb (by rw [hvm]; exact hdr) ?_ (by rw [hvm]; exact hn)).mono ?_
    · rw [hvm]
      show a.end_ + 1 - (a.base + 2 ^ bits) < wordSize
      omega
    · rintro _ s₂ ⟨h1, h2, h3⟩
      exact hset s₂ h1 (fun x => by rw [h2 x, hvm]) h3
  · rw [lessPage_eq hact hfits hpage, decide_eq_false hlt] at hvm
    have hidle : s.vm.active = false := by rw [hvm]
    refine fpageFreeInternal_idle hidle (hset s hidle (fun x => ?_) rfl)
    rw [hvm]
    exact own_deactivate hdr.active (hdr.empty hb hlt) x

/-! ### Failures that are undone -/

/-- A range that gives a page which is not taken for `INVALID_ADDR`. -/
def Gives (bits : Nat) (a : FpageAlloc) : Prop :=
  ∀ b e, nextRange a = some (b, e) → ¬ Short bits b e ∧ b ≠ invalidAddr

theorem lessPage_gives (hb : PageBits bits) {a : FpageAlloc} (hf : Filed bits a.flist)
    (hact : a.active = true) (hal : a.base % 2 ^ bits = 0) (hst : Steady bits a.base a.end_) :
    Gives bits (lessPage bits a) := by
  intro b e h
  by_cases hlt : wordAdd a.base (2 ^ bits) < a.end_
  · have hact' : (lessPage bits a).active = true := by
      show (if wordAdd a.base (2 ^ bits) ≥ a.end_ then false else a.active) = true
      rw [if_neg (Nat.not_le.mpr hlt)]
      exact hact
    rw [nextRange_active hact'] at h
    obtain ⟨rfl, rfl⟩ := Prod.mk.inj (Option.some.inj h)
    refine ⟨hst hlt, hb.ne_invalidAddr ?_⟩
    show (a.base + 2 ^ bits) % wordSize % 2 ^ bits = 0
    have hdvd : 2 ^ bits ∣ wordSize := two_pow_dvd_of_le (Nat.le_trans hb.le (by decide))
    rw [Nat.mod_mod_of_dvd _ hdvd, Nat.add_mod_right]
    exact hal
  · have hact' : (lessPage bits a).active = false := if_pos (Nat.le_of_not_lt hlt)
    have hspan := nextRange_span hb (a := lessPage bits a) hf hact' h
    exact ⟨not_short_of_span hspan, hb.ne_invalidAddr hspan.base_aligned⟩

/-- A pool of `ms_cache` is made when both ranges give a page. -/
theorem memsectionCreateCache_delivers (hb : PageBits bits) {A : Fault → Prop} (hA : ∀ f, A f)
    {alloc : Cache → Prog Event Sys Fault Bool} {s : Sys} (hf : ∀ w, Filed bits (s.side w).flist)
    (hgives : ∀ w, Gives bits (s.side w)) :
    Wp (anyRun A) (memsectionCreateCache bits alloc .ms) s fun r _ => r ≠ none := by
  refine wp_bind (fpageAllocInternal_armed hb (hf .vm) (fun _ => hA _) (fun s₁ h1 hs => ?_)
    fun s₁ h1 hs => ?_)
  · exact absurd hs (hgives .vm _ _ h1.range).1
  · refine wp_ite (fun h => absurd h (hgives .vm _ _ h1.range).2) fun _ => ?_
    refine wp_bind (wp_onlyIf (fun _ => wp_raise (hA _)) fun _ => ?_)
    have hpm : (s₁.setSide .vm (lessPage bits (s₁.side .vm))).side .pm = s.side .pm := h1.other
    refine wp_bind (fpageAllocInternal_armed hb (by rw [hpm]; exact hf .pm) (fun _ => hA _)
      (fun s₂ h2 hs₂ => ?_) fun s₂ h2 hs₂ => ?_)
    · have hrange := h2.range
      rw [hpm] at hrange
      exact absurd hs₂ (hgives .pm _ _ hrange).1
    · have hrange := h2.range
      rw [hpm] at hrange
      refine wp_ite (fun h => absurd h (hgives .pm _ _ hrange).2) fun _ => ?_
      refine wp_bind (wp_onlyIf (fun _ => wp_raise (hA _)) fun _ => ?_)
      exact wp_ite (fun _ => wp_bind (wp_update (wp_pure nofun))) fun h => absurd rfl h

/-- The descriptor of a pool is there, or comes from a pool made for it. -/
theorem slabCacheAlloc_descriptor (hb : PageBits bits) {A : Fault → Prop} (hA : ∀ f, A f)
    {depth : Nat} {s : Sys} (hf : ∀ w, Filed bits (s.side w).flist)
    (hgives : s.free .ms = 0 → ∀ w, Gives bits (s.side w)) :
    Wp (anyRun A) (slabCacheAlloc bits depth .ms) s fun r _ => r = true := by
  cases depth with
  | zero => exact wp_raise (hA _)
  | succ depth =>
    refine wp_bind (wp_read (wp_ite (fun _ => ?_) fun hnone => ?_))
    · exact wp_bind (wp_update (wp_pure rfl))
    · refine wp_bind ((memsectionCreateCache_delivers hb hA hf (hgives (by omega))).mono ?_)
      rintro (_ | _ | n) s' hr
      · exact absurd rfl hr
      · exact wp_raise (hA _)
      · exact wp_bind (wp_update (wp_pure rfl))

/-- A failure leaves both allocators with what they had. -/
theorem memsectionCreateCache_recovers (hb : PageBits bits) (depth : Nat) {sc : Cache} {s : Sys}
    (hf : ∀ w, Filed bits (s.side w).flist) (h : Recovers bits sc s) :
    Wp (anyRun fun _ => True) (memsectionCreateCache bits (slabCacheAlloc bits (depth + 1)) sc) s
      fun r s' => r = none → ∀ w x, own (s'.side w) x = own (s.side w) x := by
  have hA : ∀ f : Fault, (fun _ => True) f := fun _ => trivial
  refine wp_bind (fpageAllocInternal_armed hb (hf .vm) (fun _ => trivial) (fun s₁ h1 _ => ?_)
    fun s₁ h1 hs₁ => ?_)
  · -- no virtual page: only the range may have come from a list
    refine wp_ite (fun _ => wp_pure fun _ => ?_) fun hne => absurd rfl hne
    refine (forall_side .vm).mpr ⟨h1.owned, fun x => ?_⟩
    rw [h1.other]
  obtain ⟨hv, hrec⟩ := h _ _ h1.range hs₁
  refine wp_ite (fun hinv => absurd hinv hv) fun _ => ?_
  refine wp_bind (wp_onlyIf (fun _ => wp_raise trivial) fun hal => ?_)
  have hal' : (s₁.side .vm).base % 2 ^ bits = 0 := not_not.mp hal
  have hpm : (s₁.setSide .vm (lessPage bits (s₁.side .vm))).side .pm = s.side .pm := h1.other
  have hf₁ : Filed bits ((s₁.setSide .vm (lessPage bits (s₁.side .vm))).side .pm).flist := by
    rw [hpm]
    exact hf .pm
  refine wp_bind (fpageAllocInternal_armed hb hf₁ (fun _ => trivial) (fun s₂ h2 hs₂ => ?_)
    fun s₂ h2 hs₂ => ?_)
  · -- no physical page: the virtual one goes back
    refine wp_ite (fun _ => ?_) fun hne => absurd rfl hne
    have hrange := h2.range
    rw [hpm] at hrange
    have hpmact : (s.side .pm).active = true := by
      by_contra hno
      exact not_short_of_span (nextRange_span hb (hf .pm) (Bool.of_not_eq_true hno) hrange) hs₂
    obtain ⟨hle, hend, hfits, hn⟩ := (hrec _ _ hrange hal').1 hs₂
    have hnodes : s₂.free .fp = spareNodes s := by
      rw [h2.nodes, hpm, hpmact, Sys.setSide_free, h1.nodes]
      rfl
    refine wp_bind ((fpageFreeInternal_restores hb h1.filed h1.active hal' hend hfits
      (not_short hle (by omega) (by positivity) hs₁) h2.other (by rw [hnodes]; exact hn)).mono ?_)
    rintro _ s₃ ⟨hvm₃, hpm₃⟩
    refine wp_pure fun _ => (forall_side .vm).mpr ⟨fun x => ?_, fun x => ?_⟩
    · exact (hvm₃ x).trans (h1.owned x)
    · show own s₃.pm x = _
      rw [hpm₃]
      exact (h2.owned x).trans (by rw [hpm]; rfl)
  · -- both pages: only the descriptor can be missing
    have hrange := h2.range
    rw [hpm] at hrange
    obtain ⟨hph, hsteady⟩ := (hrec _ _ hrange hal').2 hs₂
    refine wp_ite (fun hinv => absurd hinv hph) fun _ => ?_
    refine wp_bind (wp_onlyIf (fun _ => wp_raise trivial) fun halp => ?_)
    refine wp_ite (fun _ => wp_bind (wp_update (wp_pure nofun))) fun hsc => ?_
    have hvm : (s₂.setSide .pm (lessPage bits (s₂.side .pm))).side .vm = lessPage bits (s₁.side .vm) :=
      h2.other
    refine wp_bind ((slabCacheAlloc_descriptor hb hA ((forall_side .vm).mpr ⟨?_, ?_⟩)
      fun hms => (forall_side .vm).mpr ?_).mono ?_)
    · rw [hvm]
      exact h1.filed
    · exact h2.filed
    · rw [Sys.setSide_free, h2.descriptors, Sys.setSide_free, h1.descriptors] at hms
      obtain ⟨hsv, hsp⟩ := hsteady hsc hms
      rw [hvm]
      exact ⟨lessPage_gives hb h1.filed h1.active hal' hsv,
        lessPage_gives hb h2.filed h2.active (not_not.mp halp) hsp⟩
    · rintro r s₃ rfl
      exact wp_bind (wp_update (wp_pure nofun))

/-! ### Failures that lose memory -/

/-- No node is free, and no pool can be made for one: the physical range is too short. -/
structure Starving (bits : Nat) (s : Sys) : Prop where
  vm : Filed bits s.vm.flist
  active : s.vm.active = true
  span : Span bits s.vm.base s.vm.end_
  nodes : s.free .fp = 0
  pm : Filed bits s.pm.flist
  pm_active : s.pm.active = true
  short : Short bits s.pm.base s.pm.end_

/-- The request for a node fails and the loop of `sys$fpage_clear_internal` gives up. -/
theorem clearLoop_gives_up {A : Fault → Prop} {depth fuel : Nat} {s : Sys}
    (hlt : s.vm.base < s.vm.end_)
    (h : Wp (anyRun A) (slabCacheAlloc bits depth .fp) s fun r s' =>
      r = false ∧ s'.vm.flist = s.vm.flist) :
    Wp (anyRun A) (clearLoop (vmEnv bits depth) bits (fuel + 1)) s fun _ s' =>
      s'.vm.flist = s.vm.flist := by
  refine wp_bind (wp_alloc (wp_ite (fun _ => ?_) fun hge => absurd hlt hge))
  refine wp_bind (clearing_wp (wp_bind (h.mono ?_)))
  rintro _ s' ⟨rfl, hlist⟩
  exact wp_pure hlist

/-- The virtual page is taken, the physical one is not. -/
theorem memsectionCreateCache_half (hb : PageBits bits) {A : Fault → Prop} {depth : Nat} {sc : Cache}
    {s : Sys} {Q : Option Nat → Sys → Prop} (hf : ∀ w, Filed bits (s.side w).flist) {vb ve pb pe : Nat}
    (hv : nextRange s.vm = some (vb, ve)) (hpm : nextRange s.pm = some (pb, pe))
    (hlong : ¬ Short bits vb ve) (hal : vb % 2 ^ bits = 0) (hshort : Short bits pb pe)
    (h : ∀ s₁, Armed bits .vm s s₁ → s₁.pm.active = true →
      Wp (anyRun A) (fpageFreeInternal (vmEnv bits depth) bits vb (wordAdd vb (2 ^ bits - 1)))
        (s₁.setSide .vm (lessPage bits s₁.vm)) fun _ s' => Q none s') :
    Wp (anyRun A) (memsectionCreateCache bits (slabCacheAlloc bits depth) sc) s Q := by
  have hact : s.pm.active = true := by
    by_contra hno
    exact not_short_of_span (nextRange_span hb (hf .pm) (Bool.of_not_eq_true hno) hpm) hshort
  refine wp_bind (fpageAllocInternal_armed hb (hf .vm) (fun hno => nomatch hv.symm.trans hno)
    (fun s₁ h1 hs₁ => ?_) fun s₁ h1 hs₁ => ?_)
  · obtain ⟨rfl, rfl⟩ := Prod.mk.inj (Option.some.inj (hv.symm.trans h1.range))
    exact absurd hs₁ hlong
  obtain ⟨rfl, rfl⟩ := Prod.mk.inj (Option.some.inj (hv.symm.trans h1.range))
  refine wp_ite (fun hinv => absurd hinv (hb.ne_invalidAddr hal)) fun _ => ?_
  refine wp_bind (wp_onlyIf (fun hno => absurd hal hno) fun _ => ?_)
  have hpm₁ : (s₁.setSide .vm (lessPage bits (s₁.side .vm))).side .pm = s.pm := h1.other
  refine wp_bind (fpageAllocInternal_armed hb (by rw [hpm₁]; exact hf .pm) (fun hno => ?_)
    (fun s₂ h2 _ => ?_) fun s₂ h2 hs₂ => ?_)
  · rw [hpm₁] at hno
    exact nomatch hpm.symm.trans hno
  · obtain rfl := h2.same (by rw [hpm₁]; exact hact)
    refine wp_ite (fun _ => ?_) fun hne => absurd rfl hne
    refine wp_bind ((h s₁ h1 ?_).mono fun _ s' hQ => wp_pure hQ)
    rw [show s₁.pm = s.pm from h1.other]
    exact hact
  · have hrange := h2.range
    rw [hpm₁] at hrange
    obtain ⟨rfl, rfl⟩ := Prod.mk.inj (Option.some.inj (hpm.symm.trans hrange))
    exact absurd hshort hs₂

/-- **A request for a node when there is none to be had.**  Each failure on the way down takes a page
    off the virtual range; what is left is written over. -/
theorem slabCacheAlloc_starving (hb : PageBits bits) {A : Fault → Prop} :
    ∀ (depth : Nat) (s : Sys), Starving bits s → s.vm.end_ + 1 ≤ s.vm.base + depth * 2 ^ bits →
      Wp (anyRun A) (slabCacheAlloc bits depth .fp) s fun r s' =>
        r = false ∧ s'.vm.flist = s.vm.flist := by
  intro depth
  induction depth with
  | zero =>
    intro s h hle
    have hlt := h.span.lt
    omega
  | succ depth ih =>
    intro s h hle
    refine wp_bind (wp_read (wp_ite (fun hfree => ?_) fun _ => ?_))
    · rw [h.nodes] at hfree
      omega
    · have hspan := h.span
      have hfits := hspan.fits
      have hpage := hspan.page_le
      refine wp_bind ((memsectionCreateCache_half hb ((forall_side .vm).mpr ⟨h.vm, h.pm⟩) (nextRange_active h.active)
        (nextRange_active h.pm_active) (not_short_of_span hspan) hspan.base_aligned h.short
        (Q := fun r s' => r = none ∧ s'.vm.flist = s.vm.flist) fun s₁ h1 _ => ?_).mono ?_)
      · obtain rfl := h1.same h.active
        by_cases hlt : s₁.vm.base + 2 ^ bits < s₁.vm.end_
        · -- the rest of the range is cleared, by a request for a node
          rw [lessPage_of_lt h.active hfits hlt]
          have hrest : Starving bits (s₁.setSide .vm (s₁.vm.advance (2 ^ bits))) :=
            ⟨h.vm, h.active, span_rest hspan hlt, h.nodes, h.pm, h.pm_active, h.short⟩
          have hnode := ih _ hrest (by
            show s₁.vm.end_ + 1 ≤ s₁.vm.base + 2 ^ bits + depth * 2 ^ bits
            rw [Nat.succ_mul] at hle
            omega)
          refine fpageFreeInternal_over h.active ((clearLoop_gives_up hrest.span.lt hnode).mono ?_)
          exact fun _ s₂ h2 => ⟨rfl, h2⟩
        · rw [lessPage_eq h.active hfits hpage, decide_eq_false hlt]
          exact fpageFreeInternal_idle rfl ⟨rfl, rfl⟩
      · rintro _ s' ⟨rfl, hlist⟩
        exact wp_pure ⟨rfl, hlist⟩

/-- Writing a range over one that begins at `x`, where `x` is free once. -/
theorem own_over {a : FpageAlloc} (hact : a.active = true) (hlt : a.base < a.end_)
    (hone : own a a.base ≤ 1) {base end_ : Nat} (hfar : a.base < base ∨ end_ < a.base) :
    0 < own a a.base ∧ own (a.withRange base end_) a.base = 0 := by
  have hold : span a.base a.rangeSize a.base = 1 := by
    rw [FpageAlloc.rangeSize, hact, if_pos rfl]
    exact span_eq_one.mpr ⟨Nat.le_refl _, by omega⟩
  have hnew : span base (end_ + 1 - base) a.base = 0 := span_eq_zero.mpr (by omega)
  have hsum := own_withRange a base end_ a.base
  have hpart : span a.base a.rangeSize a.base ≤ own a a.base := Nat.le_add_left _ _
  omega

/-- What is free after a range is written over the internal one depends on the lists only. -/
theorem withRange_congr {a a' : FpageAlloc} (h : a.flist = a'.flist) (base end_ : Nat) :
    a.withRange base end_ = a'.withRange base end_ := by
  rw [FpageAlloc.withRange, FpageAlloc.withRange, h]

/-- The loop of `sys$fpage_clear_internal` when the nodes run out before the range does: what is left
    of the range is in no list. -/
theorem clearLoop_starving (hb : PageBits bits) {A : Fault → Prop} {depth fuel : Nat} {s : Sys}
    (hdepth : wordSize ≤ depth + 1) (hdr : Draining bits s.vm)
    (hf : s.vm.end_ + 1 - s.vm.base < fuel) (hcuts : s.free .fp < cuts bits s.vm.end_ fuel s.vm.base)
    (hpm : Filed bits s.pm.flist) (hact : s.pm.active = true)
    (hshort : Short bits s.pm.base s.pm.end_) :
    Wp (anyRun A) (clearLoop (vmEnv bits (depth + 1)) bits fuel) s fun _ s' =>
      ∃ s₁, Cleared bits (s.free .fp) s s₁ ∧ s₁.vm.base < s₁.vm.end_ ∧ s'.vm.flist = s₁.vm.flist := by
  refine clearLoop_files hb _ fuel s hdr hf (Nat.le_refl _) hcuts.le fun fuel' s₁ h1 hf' heq => ?_
  obtain ⟨fuel', rfl⟩ := Nat.exists_eq_succ_of_ne_zero (show fuel' ≠ 0 by omega)
  have hleft : s₁.vm.base < s₁.vm.end_ := by
    by_contra hge
    rw [cuts, if_neg hge] at heq
    omega
  have hnodes := h1.nodes
  have hstarve : Starving bits s₁ := by
    refine ⟨h1.draining.filed, h1.draining.active, h1.draining.span hleft, by omega, ?_, ?_, ?_⟩
    · rw [h1.pm]
      exact hpm
    · rw [h1.pm]
      exact hact
    · rw [h1.pm]
      exact hshort
  have hpages : s₁.vm.end_ + 1 ≤ s₁.vm.base + (depth + 1) * 2 ^ bits := by
    have hfits := h1.draining.fits
    have hdeep : depth + 1 ≤ (depth + 1) * 2 ^ bits := Nat.le_mul_of_pos_right _ (by positivity)
    omega
  refine (clearLoop_gives_up hleft (slabCacheAlloc_starving hb (depth + 1) s₁ hstarve hpages)).mono ?_
  exact fun _ _ hlist => ⟨s₁, h1, hleft, hlist⟩

/-- **The rest of the range is lost.**  The nodes run out before the virtual range is cleared. -/
theorem memsectionCreateCache_loses (hb : PageBits bits) {A : Fault → Prop} {depth : Nat} (sc : Cache)
    {s : Sys} (hf : ∀ w, Filed bits (s.side w).flist) (hone : ∀ x, own s.vm x ≤ 1)
    (hdepth : wordSize ≤ depth) {vb ve pb pe : Nat} (hv : nextRange s.vm = some (vb, ve))
    (hpm : nextRange s.pm = some (pb, pe)) (hspan : Span bits vb ve) (hshort : Short bits pb pe)
    (hcuts : spareNodes s < cuts bits ve wordSize (vb + 2 ^ bits)) :
    Wp (anyRun A) (memsectionCreateCache bits (slabCacheAlloc bits depth) sc) s fun r s' =>
      r = none ∧ ∃ x, 0 < own s.vm x ∧ own s'.vm x = 0 := by
  obtain ⟨depth, rfl⟩ : ∃ d, depth = d + 1 :=
    Nat.exists_eq_succ_of_ne_zero (Nat.ne_of_gt (Nat.lt_of_lt_of_le (by decide) hdepth))
  have hpos : 0 < 2 ^ bits := by positivity
  have hfits := hspan.fits
  have hpage := hspan.page_le
  refine memsectionCreateCache_half hb hf hv hpm (not_short_of_span hspan) hspan.base_aligned hshort
    fun s₁ h1 hact => ?_
  obtain ⟨rfl, rfl⟩ : vb = s₁.vm.base ∧ ve = s₁.vm.end_ :=
    Prod.mk.inj (Option.some.inj (hv.symm.trans h1.range))
  have hact₁ : s₁.vm.active = true := h1.active
  have hpm₁ : s₁.pm = s.pm := h1.other
  rw [← hpm₁, nextRange_active hact] at hpm
  obtain ⟨rfl, rfl⟩ := Prod.mk.inj (Option.some.inj hpm)
  have hlt : s₁.vm.base + 2 ^ bits < s₁.vm.end_ := by
    by_contra hge
    rw [show wordSize = wordSize - 1 + 1 from rfl, cuts, if_neg hge] at hcuts
    omega
  have hspare : s₁.free .fp = spareNodes s := h1.nodes
  rw [lessPage_of_lt hact₁ hfits hlt]
  refine fpageFreeInternal_over hact₁ ((clearLoop_starving
    (s := s₁.setSide .vm (s₁.vm.advance (2 ^ bits))) hb hdepth
    (lessPage_draining h1.filed hact₁ hspan.base_aligned hspan.end_aligned hfits hpage) ?_ ?_ ?_ hact
    hshort).mono ?_)
  · show s₁.vm.end_ + 1 - (s₁.vm.base + 2 ^ bits) < wordSize
    omega
  · show s₁.free .fp < cuts bits s₁.vm.end_ wordSize (s₁.vm.base + 2 ^ bits)
    rw [hspare]
    exact hcuts
  · show Filed bits s₁.pm.flist
    rw [hpm₁]
    exact hf .pm
  · rintro _ s₃ ⟨s₂, h2, hleft, hlist⟩
    -- where the range that is written over began
    have hsum : own s₂.vm s₂.vm.base + span s₁.vm.base (2 ^ bits) s₂.vm.base = own s.vm s₂.vm.base := by
      rw [h2.owned, show own s.vm s₂.vm.base = own s₁.vm s₂.vm.base from (h1.owned _).symm]
      exact own_advance s₁.vm hact₁ hpage _
    have hle := hone s₂.vm.base
    have hfar : s₁.vm.base + 2 ^ bits ≤ s₂.vm.base := h2.base
    have hbefore : s₁.vm.base + (2 ^ bits - 1) < s₂.vm.base := by omega
    obtain ⟨hfree, hgone⟩ := own_over h2.draining.active hleft (by omega) (.inr hbefore)
    refine ⟨rfl, s₂.vm.base, by omega, ?_⟩
    show own (s₃.vm.withRange s₁.vm.base (wordAdd s₁.vm.base (2 ^ bits - 1))) s₂.vm.base = 0
    rw [wordAdd, Nat.mod_eq_of_lt (by omega), withRange_congr hlist]
    exact hgone

/-- A range that gives a page is whole pages. -/
theorem Even.span (hb : PageBits bits) {a : FpageAlloc} (hf : Filed bits a.flist) (he : Even bits a)
    {b e : Nat} (h : nextRange a = some (b, e)) (hlong : ¬ Short bits b e) : Span bits b e := by
  cases hact : a.active with
  | false => exact nextRange_span hb hf hact h
  | true =>
    rw [nextRange_active hact] at h
    obtain ⟨rfl, rfl⟩ := Prod.mk.inj (Option.some.inj h)
    exact (he hact).resolve_right hlong

end

/-- `n` pages of virtual memory, half a page of physical memory, and no slab in any cache. -/
def pinched (n : Nat) : Sys :=
  (Sys.init.setSide .vm ⟨fun _ => [], 0x40000000, 0x3fffffff + n * 0x1000, true⟩).setSide .pm
    ⟨fun _ => [], 0x100000, 0x1007ff, true⟩

theorem pinched_filed (n : Nat) (w : Side) : Filed 12 ((pinched n).side w).flist := by
  cases w <;> exact fun _ _ h => absurd h List.not_mem_nil

theorem pinched_even (w : Side) : Even 12 ((pinched 2).side w) := by
  cases w with
  | vm => exact fun _ => .inl ⟨by decide, by decide, by decide, by decide, by decide⟩
  | pm => exact fun _ => .inr (by decide)

theorem pinched_once (n x : Nat) : own (pinched n).vm x ≤ 1 := by
  have hlists : total (fpageSpan x) (pinched n).vm.flist (maxFpageOrder + 1) = 0 :=
    total_eq_zero fun _ _ _ hf => absurd hf List.not_mem_nil
  rw [own, hlists, Nat.zero_add]
  exact span_le_one _ _ _

end FreeVMS.Kernel
