import FreeVMS.Alloc.Chunk

/-!
# Physical memory

`pm_alloc` is given its memory in chunks and never has memory removed.  A chunk that
`sys$fpage_clear_internal` can not deal with ends the run at once, so in every state that is reached
the allocator is in order, whatever was given to it.
-/

namespace FreeVMS.Alloc

open Trace Cover Run

/-! ### Ranges that can not be cleared -/

/-- Any fault may end a run. -/
def wildJudge : Judge Empty Fault where
  calm _ := True
  fine _ := True
  allowed _ := True

/-- The run does not return. -/
def Stops {α : Type} (m : Prog Empty Cell Fault α) (s : Cell) : Prop := Wp wildJudge m s fun _ _ => False

theorem Stops.ends {α : Type} {m : Prog Empty Cell Fault α} {s : Cell} (h : Stops m s) :
    ∃ e, (m s).result = .error e := by
  have hends := Wp.ends h fun _ _ => trivial
  cases hr : (m s).result with
  | ok a =>
    rw [hr] at hends
    cases hends with
    | ok hno => exact hno.elim
  | error e => exact ⟨e, rfl⟩

theorem wp_wild {α : Type} {m : Prog Empty Cell Fault α} {s : Cell} {Q : α → Cell → Prop}
    (h : Wp quietJudge m s Q) : Wp wildJudge m s Q :=
  h.judge (fun _ h => h) (fun _ h => h) fun _ _ => trivial

/-- A range of whole pages that ends with the address space, or begins at 0 and reaches the middle. -/
structure Overlong (bits base end_ : Nat) : Prop where
  base_aligned : base % 2 ^ bits = 0
  end_aligned : (end_ + 1) % 2 ^ bits = 0
  lt : base < end_
  word : end_ < wordSize
  long : end_ + 1 = wordSize ∨ (base = 0 ∧ 2 ^ 63 ≤ end_ + 1)

section

variable {bits base end_ : Nat}

/-- Half of the address space and more at 0: the loop of `sys$biggest_fpage` runs to its end. -/
theorem biggestBits_zero (hword : end_ < wordSize) (hlong : 2 ^ 63 ≤ end_ + 1) :
    ∀ (fuel b : Nat), fuel + b = 64 → biggestBits 0 0 end_ fuel b = 64 := by
  intro fuel
  induction fuel with
  | zero =>
    intro b hf
    rw [biggestBits]
    omega
  | succ fuel ih =>
    intro b hf
    have hzero : wordShl (wordShr 0 (b + 1)) (b + 1) = 0 := by simp [wordShl, wordShr]
    have hpos : 0 < 2 ^ ((b + 1) % 64) := by positivity
    have hpow : 2 ^ ((b + 1) % 64) ≤ 2 ^ 63 := Nat.pow_le_pow_right (by decide) (by omega)
    have hsize : wordShl 1 (b + 1) = 2 ^ ((b + 1) % 64) := by
      rw [wordShl, Nat.one_mul]
      exact Nat.mod_eq_of_lt (hpow.trans_lt (by decide))
    have htop : wordSub (wordAdd 0 (2 ^ ((b + 1) % 64))) 1 ≤ end_ := by
      rw [wordAdd_sub_one hpos (by omega)]
      omega
    rw [biggestBits]
    simp only [hzero, hsize]
    rw [if_neg (by omega)]
    exact ih (b + 1) (by omega)

variable (hb : PageBits bits)

include hb

/-- What `sys$biggest_fpage` cuts from such a range has no size of a page, or leaves such a range. -/
theorem Overlong.biggestFpage (h : Overlong bits base end_) :
    l4SizeLog2 (biggestFpage bits base base end_) < bits ∨
      Overlong bits (wordAdd base (l4Size (biggestFpage bits base base end_))) end_ := by
  have hge := hb.ge
  have hle30 := hb.le
  have hlt := h.lt
  have hword := h.word
  have hpage := hb.two_le
  have hgap := aligned_gap h.base_aligned h.end_aligned (by omega)
  have hwrap : l4SizeLog2 (l4FpageLog2 base 64) < bits := by
    obtain ⟨q, rfl⟩ : 2 ^ 10 ∣ base := (two_pow_dvd_of_le hge).trans (Nat.dvd_of_mod_eq_zero h.base_aligned)
    simp only [l4SizeLog2, l4FpageLog2]
    omega
  rw [Alloc.biggestFpage]
  by_cases hnil : end_ < base ∨ wordAdd (wordSub end_ base) 1 < 2 ^ bits
  · rw [if_pos hnil]
    left
    rw [show l4SizeLog2 nilpage = 0 from rfl]
    omega
  rw [if_neg hnil]
  rcases biggestBits_fits (show base < wordSize by omega) (64 - bits) bits (by omega) h.base_aligned
    hgap with h64 | ⟨hbits, h64, hal, hfits⟩
  · left
    simp only [h64]
    have hround : wordShl (wordShr base 64) 64 = base := by
      simp only [wordShl, wordShr, Nat.mod_self, Nat.pow_zero, Nat.div_one, Nat.mul_one]
      exact Nat.mod_eq_of_lt (by omega)
    rw [hround]
    exact hwrap
  · right
    have htop : end_ + 1 = wordSize := by
      rcases h.long with htop | ⟨rfl, hlong⟩
      · exact htop
      · rw [biggestBits_zero hword hlong _ _ (by omega)] at h64
        omega
    generalize biggestBits base base end_ (64 - bits) bits = b at hbits h64 hal hfits
    simp only [wordShl_shr h64 (show base < wordSize by omega),
      Nat.div_mul_cancel (Nat.dvd_of_mod_eq_zero hal)]
    rw [l4Size, l4SizeLog2_fpageLog2 (by omega) h64 hal, if_neg (by omega), wordAdd]
    have hpow : 2 ^ bits ≤ 2 ^ b := Nat.pow_le_pow_right (by decide) hbits
    have hbase : (base + 2 ^ b) % 2 ^ bits = 0 := by
      rw [Nat.add_mod, h.base_aligned, Nat.mod_eq_zero_of_dvd (two_pow_dvd_of_le hbits)]
      rfl
    rcases Nat.eq_or_lt_of_le hfits with hend | hmore
    · rw [hend, htop, Nat.mod_self]
      exact ⟨Nat.zero_mod _, h.end_aligned, by omega, hword, .inl htop⟩
    · have hgap' := aligned_gap hbase h.end_aligned hmore
      rw [Nat.mod_eq_of_lt (by omega)]
      exact ⟨hbase, h.end_aligned, by omega, hword, .inl htop⟩

/-- **The wrap.**  The loop of `sys$fpage_clear_internal` ends outside of `flist[]`. -/
theorem clearLoop_stops : ∀ (fuel : Nat) (s : Cell), Overlong bits s.alloc.base s.alloc.end_ →
    (∀ k, s.answers k = true) → Stops (clearLoop quietEnv bits fuel) s := by
  intro fuel
  induction fuel with
  | zero =>
    intro s _ _
    exact wp_raise trivial
  | succ fuel ih =>
    intro s h hserved
    refine wp_bind (wp_alloc (wp_ite (fun _ => ?_) fun hge => absurd h.lt hge))
    refine wp_bind (wp_pure (wp_bind (wp_bind (wp_read (wp_bind (wp_update (wp_pure ?_)))))))
    rw [if_pos (hserved 0)]
    refine wp_bind (wp_alloc (wp_bind ?_))
    show Wp wildJudge (insertTail quietEnv (fpOrder bits (biggestFpage bits s.alloc.base s.alloc.base
      s.alloc.end_)) (biggestFpage bits s.alloc.base s.alloc.base s.alloc.end_)) _ _
    rcases h.biggestFpage hb with hsmall | hnext
    · refine wp_ite (fun hin => ?_) fun _ => wp_raise trivial
      rw [fpOrder] at hin
      omega
    · refine wp_ite (fun _ => wp_modify ?_) fun _ => wp_raise trivial
      exact wp_bind (wp_pure (wp_bind (wp_modify (ih _ hnext fun k => hserved (k + 1)))))

theorem fpageFreeChunk_stops {s : Cell} (ha : AInv bits s.alloc) (hserved : ∀ k, s.answers k = true)
    (h : Overlong bits base end_) : Stops (fpageFreeChunk quietEnv bits base end_) s := by
  -- once the range is set it can not be cleared
  have hset : ∀ s₁ : Cell, s₁.alloc.active = false → (∀ k, s₁.answers k = true) →
      Stops (fpageFreeInternal quietEnv bits base end_ >>= fun _ => fpageClearInternal quietEnv bits) s₁ := by
    intro s₁ hact hserved₁
    refine wp_bind (wp_bind (wp_alloc (wp_bind (wp_onlyIf (fun hno => ?_) fun _ => wp_modify ?_))))
    · rw [show s₁.alloc.active = true from hno] at hact
      exact absurd hact (by decide)
    · exact wp_bind (wp_alloc (wp_onlyIf (fun _ => clearLoop_stops hb wordSize _ h hserved₁)
        fun hno => absurd rfl hno))
  refine wp_bind (wp_alloc (wp_bind (wp_onlyIf (fun _ => ?_) fun hact => hset s ?_ hserved)))
  · refine (wp_wild (fpageClearInternal_wp hb (quietContract bits True) s (fun _ => hserved) ha)).mono ?_
    rintro _ s₁ ⟨hinv, -, -, hact, -⟩
    exact hset s₁ (hact trivial) (hinv trivial)
  · exact Bool.eq_false_iff.mpr hact

/-- Half of the address space is a flexpage, and so is the last page, but neither can be given back. -/
theorem freeNodes_stops : ∀ (list : List Fpage) (s : Cell), AInv bits s.alloc →
    (∀ k, s.answers k = true) →
    (∀ f ∈ list, f.raw < wordSize ∧ ∃ i b, f = l4FpageLog2 b (i + bits) ∧ i + bits < 64 ∧
      b % 2 ^ (i + bits) = 0) →
    ¬ (∀ f ∈ list, l4Address f + l4Size f < wordSize ∧ l4SizeLog2 f < 63) →
    Stops (freeNodes quietEnv bits list) s := by
  intro list
  have hge := hb.ge
  induction list with
  | nil =>
    intro s _ _ _ hbad
    exact absurd (fun f hf => absurd hf List.not_mem_nil) hbad
  | cons f list ih =>
    intro s ha hserved hwords hbad
    obtain ⟨hraw, i, b, rfl, hlt, hal⟩ := hwords f List.mem_cons_self
    have haddr := l4Address_fpageLog2 (show 10 ≤ i + bits by omega) hlt hal
    have hlog := l4SizeLog2_fpageLog2 (show 10 ≤ i + bits by omega) hlt hal
    have hsize : l4Size (l4FpageLog2 b (i + bits)) = 2 ^ (i + bits) := by
      rw [l4Size, hlog, if_neg (by omega)]
    rw [l4FpageLog2_raw (by omega) hlt hal] at hraw
    have hw : wordSize % 2 ^ (i + bits) = 0 :=
      Nat.mod_eq_zero_of_dvd (two_pow_dvd_of_le (show i + bits ≤ 64 by omega))
    have hfit : b + 2 ^ (i + bits) ≤ wordSize := aligned_gap hal hw (by omega)
    rw [freeNodes, haddr]
    by_cases hgood : b + 2 ^ (i + bits) < wordSize ∧ i + bits < 63
    · have hblock : Block bits i (l4FpageLog2 b (i + bits)) b := ⟨rfl, hgood.2, hal, hgood.1⟩
      refine wp_bind ((wp_wild (fpageFreeChunk_wp hb (quietContract bits True) s (fun _ => hserved) ha
        (hblock.span hb))).mono ?_)
      rintro _ s₁ ⟨hinv, ha₁, -, -⟩
      refine wp_bind (wp_pure (ih s₁ ha₁ (hinv trivial)
        (fun g hg => hwords g (List.mem_cons_of_mem _ hg)) fun hrest => hbad fun g hg => ?_))
      rcases List.mem_cons.mp hg with rfl | hg
      · rw [haddr, hsize, hlog]
        exact hgood
      · exact hrest g hg
    · have hpos : 0 < 2 ^ (i + bits) := by positivity
      have hpage : 2 ^ bits ≤ 2 ^ (i + bits) := Nat.pow_le_pow_right (by decide) (by omega)
      have hp2 := hb.two_le
      have htop : 2 ^ (i + bits) < wordSize := Nat.pow_lt_pow_right (by decide) hlt
      have hend : fpEnd (l4FpageLog2 b (i + bits)) = b + 2 ^ (i + bits) - 1 := by
        rw [fpEnd, haddr, hsize, wordSub_one hpos htop.le, wordAdd, Nat.mod_eq_of_lt (by omega)]
        omega
      have hover : Overlong bits b (fpEnd (l4FpageLog2 b (i + bits))) := by
        rw [hend]
        refine ⟨?_, ?_, by omega, by omega, ?_⟩
        · exact aligned_of_le (show bits ≤ i + bits by omega) hal
        · rw [Nat.sub_add_cancel (by omega)]
          exact aligned_of_le (show bits ≤ i + bits by omega) (by rw [Nat.add_mod_right]; exact hal)
        · -- a flexpage of half the address space is one of two
          rcases Nat.eq_or_lt_of_le hfit with heq | hless
          · exact .inl (by omega)
          · have h63 : i + bits = 63 := by omega
            rw [h63] at hal hless ⊢
            have hw63 : wordSize = 2 ^ 63 + 2 ^ 63 := by decide
            refine .inr ⟨?_, by omega⟩
            by_contra hb0
            have := aligned_gap (Nat.zero_mod (2 ^ 63)) hal (Nat.pos_of_ne_zero hb0)
            omega
      refine wp_bind ((fpageFreeChunk_stops hb ha hserved hover).mono ?_)
      intro _ _ hno
      exact hno.elim

omit hb in
/-- Above half of the address space the shift of `sz_order` never reaches the size. -/
theorem szOrder_above {size : Nat} (hsize : 2 ^ 63 < size) :
    ∀ (fuel order : Nat), szOrder bits size fuel order = none := by
  intro fuel
  induction fuel with
  | zero => exact fun _ => rfl
  | succ fuel ih =>
    intro order
    have hpow : 2 ^ ((order + bits) % 64) ≤ 2 ^ 63 := Nat.pow_le_pow_right (by decide) (by omega)
    have hshl : wordShl 1 (order + bits) = 2 ^ ((order + bits) % 64) := by
      rw [wordShl, Nat.one_mul]
      exact Nat.mod_eq_of_lt (hpow.trans_lt (by decide))
    rw [szOrder, hshl, if_pos (by omega)]
    exact ih (order + 1)

end

/-! ### Runs of `pm_alloc` -/

/-- The calls that are made on `pm_alloc`: none of them sets the internal range, nothing is removed, and a
    flexpage is a word. -/
def Call.Physical (bits : Nat) (c : Call) (L : Ledger) : Prop :=
  c.Granted bits L ∧
    match c.op with
    | .freeInternal _ _ => False
    | .freeList list => ∀ f ∈ list, f.raw < wordSize
    | _ => True

section

variable {bits : Nat} (hb : PageBits bits)

include hb

/-- A call that `sys$fpage_clear_internal` or `sz_order` can not deal with does not return. -/
theorem Call.Physical.fits {c : Call} {L L' : Ledger} (h : c.Physical bits L) (ha : AInv bits L.alloc)
    (hL : perform bits c L = .ok L') : c.op.Fits := by
  obtain ⟨⟨hserved, -, hlegal⟩, hphysical⟩ := h
  -- a call that stops makes no new ledger
  have hstops : ¬ Stops (c.op.exec quietEnv bits) ⟨L.alloc, c.answers⟩ := by
    intro hs
    obtain ⟨e, he⟩ := hs.ends
    rw [perform, show (c.outcome bits L).result = .error e from he] at hL
    cases hL
  by_contra hfits
  apply hstops
  cases hop : c.op with
  | freeChunk base end_ =>
    rw [hop] at hlegal hfits
    have hend := hlegal.2.2.1
    have hlong : end_ + 1 = wordSize ∨ (base = 0 ∧ 2 ^ 63 ≤ end_ + 1) := by
      by_contra hno
      exact hfits ⟨by omega, by omega⟩
    exact wp_bind ((fpageFreeChunk_stops hb (s := ⟨L.alloc, c.answers⟩) ha hserved
      ⟨hlegal.1.base_aligned, hlegal.1.end_aligned, hlegal.2.1, hend, hlong⟩).mono
        fun _ _ hno => hno.elim)
  | allocChunk size =>
    rw [hop] at hfits
    refine wp_bind (wp_bind ?_)
    rw [fpageAlloc, szOrder_above (Nat.lt_of_not_le hfits)]
    exact wp_raise trivial
  | freeList list =>
    rw [hop] at hlegal hfits hphysical
    exact wp_bind ((freeNodes_stops hb list ⟨L.alloc, c.answers⟩ ha hserved
      (fun f hf => ⟨hphysical f hf, hlegal.1 f hf⟩) hfits).mono fun _ _ hno => hno.elim)
  | freeInternal base end_ =>
    rw [hop] at hphysical
    exact hphysical.elim
  | allocList _ _ _ | allocInternal | clearInternal | removeChunk _ _ =>
    rw [hop] at hfits
    exact absurd trivial hfits

/-- **`pm_alloc`.**  Whatever chunks it is given, memory is neither lost nor owned twice in the states that
    are reached. -/
theorem runs_physical (calls : List Call)
    (h : Along (perform bits) (Call.Physical bits) calls Ledger.empty) :
    Ends (fun _ => True) (Conserved bits) (runs (perform bits) calls Ledger.empty) := by
  refine runs_induction (fun c L hC hc => ?_) calls _ (conserved_empty bits) h
  obtain ⟨hserved, hremove, hlegal⟩ := hc.1
  cases hL : perform bits c L with
  | error e => exact .error trivial
  | ok L' =>
    have hspec := perform_spec hb hC.ainv ⟨hlegal, hc.fits hb hC.ainv hL, fun _ => hserved⟩
    rw [hL] at hspec
    cases hspec with
    | ok hperf => exact .ok (hC.step hlegal hserved hremove hperf)

end

/-! ### What backs a memsection -/

/-- `x` is an address of the flexpage. -/
def Fpage.Has (f : Fpage) (x : Nat) : Prop := l4Address f ≤ x ∧ x < l4Address f + l4Size f

/-- No address is in two of the flexpages. -/
def Distinct (l : List Fpage) : Prop := l.Pairwise fun f g => ∀ x, ¬ (f.Has x ∧ g.Has x)

theorem Fpage.has_iff {f : Fpage} {x : Nat} : f.Has x ↔ fpageSpan x f = 1 := span_eq_one.symm

theorem distinct_of_cover {l : List Fpage} (h : ∀ x, coverList l x ≤ 1) : Distinct l := by
  induction l with
  | nil => exact List.Pairwise.nil
  | cons f l ih =>
    refine List.pairwise_cons.mpr ⟨fun g hg x hx => ?_, ih fun x => ?_⟩
    · have hle := h x
      have hmem : fpageSpan x g ≤ coverList l x := le_weight_of_mem hg
      rw [coverList_cons, Fpage.has_iff.mp hx.1] at hle
      rw [Fpage.has_iff.mp hx.2] at hmem
      omega
    · have hle := h x
      rw [coverList_cons] at hle
      omega

/-- What `sys$fpage_alloc_list` does for `[base, end_]`: it gives up and everything is as it was, or takes
    distinct flexpages out of what is free that back the range. -/
structure Backed (bits base end_ : Nat) (a a' : FpageAlloc) (l : List Fpage) : Prop where
  gaveUp : l = [] → ∀ x, own a' x = own a x
  taken : ∀ x, own a' x + coverList l x = own a x
  free : ∀ f ∈ l, ∀ x, f.Has x → own a x = 1
  distinct : Distinct l
  blocks : Blocks bits l
  backs : l ≠ [] → Backs base end_ l

/-- A range of whole pages. -/
structure PageRange (bits base end_ : Nat) : Prop where
  base_aligned : base % 2 ^ bits = 0
  end_aligned : (end_ + 1) % 2 ^ bits = 0
  le : base ≤ end_ + 1
  base_word : base < wordSize
  end_word : end_ < wordSize

theorem Conserved.allocList {bits base end_ : Nat} (hb : PageBits bits) {L : Ledger}
    (hC : Conserved bits L) {answers : Nat → Bool} (hserved : ∀ k, answers k = true)
    (hr : PageRange bits base end_) :
    ∃ l, (fpageAllocList quietEnv bits base end_ (2 ^ bits) ⟨L.alloc, answers⟩).result = .ok l ∧
      Backed bits base end_ L.alloc
        (fpageAllocList quietEnv bits base end_ (2 ^ bits) ⟨L.alloc, answers⟩).state.alloc l := by
  have hwp := fpageAllocList_wp hb (quietContract bits True) trivial ⟨L.alloc, answers⟩
    (fun _ => hserved) hC.ainv base end_ (2 ^ bits)
  have hquiet := quietEnv_avoids (e := Fault.panic)
  obtain ⟨l, hl, -, -, hblocks, hacct, hbacks⟩ := hwp.exists_ok (fun _ _ => trivial) fun e he => by
    rw [show e = Fault.panic from he]
    exact alloc_avoids.bind fun _ => allocListLoop_avoids bits hquiet (by decide) (by decide) _ _ _ _ _
  refine ⟨l, hl, ?_⟩
  generalize (fpageAllocList quietEnv bits base end_ (2 ^ bits) ⟨L.alloc, answers⟩).state = s' at hacct
  have htaken : ∀ x, own s'.alloc x + coverList l x = own L.alloc x := hacct
  exact {
    gaveUp := by
      rintro rfl x
      exact htaken x
    taken := htaken
    free := fun f hf x hx => by
      have h1 := htaken x
      have h2 := hC.once x
      have h3 : fpageSpan x f ≤ coverList l x := le_weight_of_mem hf
      rw [Fpage.has_iff.mp hx] at h3
      omega
    distinct := distinct_of_cover fun x => by
      have h1 := htaken x
      have h2 := hC.once x
      omega
    blocks := hblocks
    backs := fun hne => (hbacks rfl hr.base_aligned hr.end_aligned hr.le hr.end_word
      hr.base_word).resolve_left hne }

end FreeVMS.Alloc
