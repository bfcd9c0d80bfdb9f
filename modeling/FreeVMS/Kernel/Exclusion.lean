import FreeVMS.Kernel.SectionSpec
import FreeVMS.BTree.Search

/-!
# Memory is used once

An address of virtual memory is free, or in a slab pool, or in a memsection that has been created.
`charge` counts how often it is.  No call of the kernel makes it more than one: what
`sys$fpage_alloc_chunk` returns has left `vm_alloc`, what a failed creation gives back is in no
memsection, and the pages that the slab caches take in the middle of a call come out of what is
free.
-/

namespace FreeVMS.Kernel.Sections

open Trace Cover Run Alloc BTree

/-- How often the memsections of the lists contain an address. -/
def sectionCover (l : List (Option Nat × Memsection)) (x : Nat) : Nat :=
  weight (fun e => span e.2.base (e.2.end_ + 1 - e.2.base) x) l

/-- How often an address of virtual memory is in use: free, in a pool, or in a memsection. -/
def charge (bits : Nat) (s : Sys) (x : Nat) : Nat :=
  account bits .vm s x + sectionCover s.objs.sections x

/-- The caller chooses where the memsection lies. -/
def Args.Placed (a : Args) : Prop :=
  has a.flags memNormal = false ∧ (has a.flags memFixed = true ∨ has a.flags memUtcb = false)

instance (a : Args) : Decidable a.Placed := inferInstanceAs (Decidable (_ ∧ (_ ∨ _)))

instance (a : Args) : Decidable a.BacksFixed := inferInstanceAs (Decidable (_ ∧ _ ∧ _))

/-- Nothing lies where the caller wants the memsection. -/
def Args.Unused (bits : Nat) (a : Args) (s : Sys) : Prop :=
  a.Placed → 0 < a.size ∧ a.base + a.size ≤ wordSize ∧
    ∀ x, a.base ≤ x → x < a.base + a.size → charge bits s x = 0

/-- What `objtable_insert` makes of the tree. -/
def Entered (order : Nat) (pad : Nat → Nat) (O : Objects) (o : Memsection) (t : BTreeS) : Prop :=
  if O.initialized then
    ∃ out, objBTIns order O.tree o .null (pagesBut pad none) = some out ∧ t = out.btree
  else t = O.tree

/-- A setup function has succeeded.  Its memsection lies where the caller wants it, or in memory that
    is no longer in `vm_alloc`. -/
structure Made (bits order : Nat) (a : Args) (slabs : Slabs) (s₀ : Sys) (m : Memsection) (s : Sys) :
    Prop where
  addr : m.addr = slabs.ms
  le : m.base ≤ m.end_
  fits : m.end_ < wordSize
  range : a.Placed → m.base = a.base ∧ m.end_ = a.base + a.size - 1
  held : ∃ t dp, Entered order slabs.pad s₀.objs m t ∧
    Held bits True s₀ { s₀.objs with tree := t }
      (fun x => if a.Placed then 0 else span m.base (m.end_ + 1 - m.base) x) dp s

/-- A setup function has failed.  The range of a fixed memsection that could not be backed is free
    now. -/
structure Failed (bits : Nat) (a : Args) (s₀ s : Sys) : Prop where
  inv : SInv bits s
  sections : s.objs.sections = s₀.objs.sections
  initialized : s.objs.initialized = s₀.objs.initialized
  tree : ¬ a.BacksFixed → s.objs.tree = s₀.objs.tree
  vm : ∀ x, account bits .vm s x ≤
    account bits .vm s₀ x + if a.BacksFixed then span a.base a.size x else 0
  pm : ∀ x, account bits .pm s x ≤ account bits .pm s₀ x
  pools : ∃ t, s.pools = s₀.pools ++ t

/-- `sys$pd_create_memsection` has created `m`. -/
structure Created (bits order : Nat) (a : Args) (slabs : Slabs) (s₀ : Sys) (m : Memsection)
    (s : Sys) : Prop where
  inv : SInv bits s
  addr : m.addr = slabs.ms
  le : m.base ≤ m.end_
  fits : m.end_ < wordSize
  range : a.Placed → m.base = a.base ∧ m.end_ = a.base + a.size - 1
  sections : s.objs.sections =
    s₀.objs.sections ++ [(if s₀.objs.initialized then some a.self else none, m)]
  initialized : s.objs.initialized = s₀.objs.initialized
  tree : Entered order slabs.pad s₀.objs m s.objs.tree
  vm : ∀ x, account bits .vm s x + (if a.Placed then 0 else span m.base (m.end_ + 1 - m.base) x) =
    account bits .vm s₀ x
  pm : ∀ x, account bits .pm s x ≤ account bits .pm s₀ x
  pools : ∃ t, s.pools = s₀.pools ++ t

/-- The memsections are pairwise disjoint, and no address of one is free or in a slab pool. -/
structure Exclusive (bits : Nat) (s : Sys) : Prop where
  proper : ∀ e ∈ s.objs.sections, e.2.base ≤ e.2.end_ ∧ e.2.end_ < wordSize
  apart : s.objs.sections.Pairwise fun e f => ¬ Meets e.2 f.2
  reserved : ∀ e ∈ s.objs.sections, ∀ x, e.2.Contains x →
    own s.vm x = 0 ∧ ∀ p ∈ s.pools, ¬ (p.virt ≤ x ∧ x < p.virt + 2 ^ bits)
  once : ∀ x, charge bits s x ≤ 1
  physical : ∀ x, account bits .pm s x ≤ 1

section

variable {bits order : Nat} {W : Prop} {s₀ s s' : Sys} {O : Objects} {dv dp : Nat → Nat} {a : Args}

theorem Held.failed (h : Held bits True s₀ s₀.objs (fun _ => 0) (fun _ => 0) s) :
    Failed bits a s₀ s := by
  refine ⟨h.inv, by rw [h.objs], by rw [h.objs], fun _ => by rw [h.objs], fun x => ?_, fun x => ?_,
    h.pools⟩
  · have hx := h.vm trivial x
    omega
  · have hx := h.pm x
    omega

section

variable (hb : PageBits bits) (h12 : 12 ≤ bits)

include hb h12

/-- A range with nothing in it is removed. -/
theorem Held.removeUnused {base end_ : Nat} (h : Held bits True s₀ O (fun _ => 0) dp s)
    (hp : Paged bits base end_) (hnone : ∀ x, base ≤ x → x ≤ end_ → account bits .vm s₀ x = 0) :
    Wp (sysJudge bits) (fpageRemoveChunk (linkedEnv bits .vm) bits base end_) s fun _ s' =>
      Held bits True s₀ O (fun _ => 0) dp s' := by
  refine (fpageRemoveChunk_wp hb (linkedContract hb h12 .vm s) hp s (Beside.refl h.inv .vm)
    (h.inv .vm)).mono ?_
  rintro _ s' ⟨h1, h2, h3, -⟩
  refine h.on_vm h1 h2 fun hW x => ?_
  have hbefore := h.vm hW x
  by_cases hin : base ≤ x ∧ x ≤ end_
  · have hle : account bits .vm s' x ≤ account bits .vm s x := h3.1 x
    have hzero := hnone x hin.1 hin.2
    omega
  · have heq : account bits .vm s' x = account bits .vm s x := h3.2 trivial x hin
    omega

variable (ho : ValidOrder order)

include ho

/-- **`objtable_insert`.**  It reports success, and puts the memsection into the tree when
    `vms$pd_initialized` is set. -/
theorem Held.enter (h : Held bits W s₀ O dv dp s) (hform : Formed order false 0 O.tree)
    (pad : Nat → Nat) (o : Memsection) :
    Wp (sysJudge bits) (objtableInsert bits order pad o) s fun r s' =>
      r = 0 ∧ ∃ t, Formed order false 0 t ∧ Entered order pad O o t ∧
        Held bits W s₀ { O with tree := t } dv dp s' := by
  have hinit : s.objs.initialized = O.initialized := by rw [h.objs]
  have htree : s.objs.tree = O.tree := by rw [h.objs]
  refine wp_bind (wp_read (wp_ite (fun hyes => ?_) fun hno => ?_))
  swap
  · refine wp_pure ⟨rfl, O.tree, hform, ?_, h⟩
    rw [Entered, if_neg fun hyes => hno (hinit.trans hyes)]
  have hgrant : ∀ i, (pagesBut pad none).grant i ≠ none := fun i => by simp [pagesBut]
  obtain ⟨out, hout, -, hform', hstep⟩ := objBTIns_spec ho (Nat.zero_le _) hform
    (fun hno => absurd hno (by decide)) .null (pagesBut pad none)
  have hok : out.status = .ok := by
    cases hstep with
    | refused _ _ hstatus _ => exact hstatus
    | stored _ _ hstatus _ => exact hstatus
    | starved _ hfail =>
      obtain ⟨i, -, hnone⟩ := hfail
      exact absurd hnone (hgrant _)
    | rootless _ _ _ hfail => exact absurd hfail (hgrant _)
  obtain ⟨r, hins, hzero⟩ := insert_code_zero_iff hout
  obtain rfl := hzero.mpr hok
  have hentered : Entered order pad O o out.btree := by
    rw [Entered, if_pos (hinit.symm.trans hyes)]
    exact ⟨out, hout, rfl⟩
  rw [htree, hout]
  refine wp_bind ((h.askPages hb h12 out.pool.asked 0).mono ?_)
  rintro refused s' ⟨rfl, h'⟩
  rw [hins]
  refine wp_bind (wp_update (wp_pure ⟨rfl, out.btree, hform', hentered, ?_⟩))
  refine ⟨fun w => ?_, h'.vm, h'.pm, h'.pools, ?_⟩
  · have hside : Sys.side { s' with objs := { s'.objs with tree := out.btree } } w = s'.side w := by
      cases w <;> rfl
    rw [hside]
    exact h'.inv w
  · show ({ s'.objs with tree := out.btree } : Objects) = _
    rw [h'.objs]

/-- What a setup function has done when it returns. -/
def Settled (bits order : Nat) (a : Args) (slabs : Slabs) (s₀ : Sys) (r : Int × Memsection)
    (s : Sys) : Prop :=
  Formed order false 0 s.objs.tree ∧ (r.1 = 0 → Made bits order a slabs s₀ r.2 s) ∧
    (r.1 ≠ 0 → Failed bits a s₀ s)

omit hb h12 ho in
theorem Settled.failed {slabs : Slabs} {code : Int} {m : Memsection} (hcode : code ≠ 0)
    (hform : Formed order false 0 s₀.objs.tree)
    (h : Held bits True s₀ s₀.objs (fun _ => 0) (fun _ => 0) s) :
    Settled bits order a slabs s₀ (code, m) s :=
  ⟨(h.kinv hform).formed, fun hzero => absurd hzero hcode, fun _ => h.failed⟩

omit hb h12 ho in
/-- The memsection lies in a chunk that was taken out of `vm_alloc`. -/
theorem Settled.taken {slabs : Slabs} {base size : Nat} {t : BTreeS} (hp : ¬ a.Placed)
    (hpos : 0 < size) (hfit : base + size < wordSize) (ht : Formed order false 0 t)
    (hent : Entered order slabs.pad s₀.objs ⟨slabs.ms, base, base + size - 1⟩ t)
    (h : Held bits True s₀ { s₀.objs with tree := t } (span base size) dp s) :
    Settled bits order a slabs s₀ (0, ⟨slabs.ms, base, base + size - 1⟩) s := by
  have hend : base + size - 1 + 1 - base = size := by omega
  refine ⟨(h.kinv ht).formed, fun _ => ⟨rfl, ?_, ?_, fun hyes => absurd hyes hp, t, dp, hent, ?_⟩,
    fun hne => absurd rfl hne⟩
  · show base ≤ base + size - 1
    omega
  · show base + size - 1 < wordSize
    omega
  · simpa only [if_neg hp, hend] using h

omit hb h12 ho in
/-- The memsection lies where the caller wants it. -/
theorem Settled.placed {slabs : Slabs} {t : BTreeS} (hp : a.Placed) (hpos : 0 < a.size)
    (hfit : a.base + a.size ≤ wordSize) (ht : Formed order false 0 t)
    (hent : Entered order slabs.pad s₀.objs ⟨slabs.ms, a.base, a.base + a.size - 1⟩ t)
    (h : Held bits True s₀ { s₀.objs with tree := t } (fun _ => 0) dp s) :
    Settled bits order a slabs s₀ (0, ⟨slabs.ms, a.base, a.base + a.size - 1⟩) s := by
  refine ⟨(h.kinv ht).formed, fun _ => ⟨rfl, ?_, ?_, fun _ => ⟨rfl, rfl⟩, t, dp, hent, ?_⟩,
    fun hne => absurd rfl hne⟩
  · show a.base ≤ a.base + a.size - 1
    omega
  · show a.base + a.size - 1 < wordSize
    omega
  · simpa only [if_pos hp] using h

/-- **`objtable_setup`.** -/
theorem objtableSetup_settled (h : Held bits True s₀ s₀.objs (fun _ => 0) (fun _ => 0) s)
    (hform : Formed order false 0 s₀.objs.tree) (slabs : Slabs) (hflag : has a.flags memNormal = true)
    (hpos : 0 < a.size) (hpage : a.size % 2 ^ bits = 0) (hsize : a.size < 2 ^ 63) :
    Wp (sysJudge bits) (objtableSetup bits order slabs a.size a.flags a.pagesize) s
      (Settled bits order a slabs s₀) := by
  have hp : ¬ a.Placed := fun hyes => absurd (hflag.symm.trans hyes.1) (by decide)
  refine wp_bind (wp_onlyIf (fun hno => absurd hflag (by rw [hno]; decide)) fun _ => ?_)
  refine wp_bind ((h.allocChunk hb h12 hpage hsize).mono ?_)
  rintro base s₁ (⟨rfl, h₁⟩ | ⟨hal, hfit, h₁⟩)
  · exact wp_ite (fun _ => wp_pure (.failed (by decide) hform h₁)) fun hno => absurd rfl hno
  refine wp_ite (fun heq => absurd heq (hb.ne_invalidAddr hal)) fun _ => ?_
  rw [wordAdd_wordSub_one hpos (Nat.le_of_lt hfit)]
  have hlist : Wp (sysJudge bits)
      (if has a.flags memUser then pure []
        else fpageAllocList (linkedEnv bits .pm) bits base (base + a.size - 1) a.pagesize) s₁
      fun l s' => Held bits True s₀ s₀.objs (span base a.size) (coverList l) s' := by
    refine wp_ite (fun _ => wp_pure h₁) fun _ => (h₁.allocList hb h12 _ _ _).mono ?_
    rintro l s' ⟨-, h₂⟩
    exact h₂
  refine wp_bind (hlist.mono ?_)
  intro l s₂ h₂
  refine wp_ite (fun hempty => ?_) fun _ => ?_
  · obtain ⟨-, rfl⟩ := hempty
    have hend : base + a.size - 1 + 1 - base = a.size := by omega
    have h₂' : Held bits True s₀ s₀.objs (span base (base + a.size - 1 + 1 - base))
        (coverList []) s₂ := by
      rw [hend]
      exact h₂
    refine wp_bind ((h₂'.freeChunk hb h12 (chunk_span hal hfit hb.two_le hpos hpage hsize)).mono ?_)
    intro _ s₃ h₃
    exact wp_pure (.failed (by decide) hform h₃)
  · refine wp_bind ((h₂.enter hb h12 ho hform slabs.pad _).mono ?_)
    rintro r s₃ ⟨rfl, t, ht, hent, h₃⟩
    exact wp_ite (fun hne => absurd rfl hne) fun _ => wp_pure (.taken hp hpos hfit ht hent h₃)

/-- **`objtable_setup_utcb`.** -/
theorem objtableSetupUtcb_settled (h : Held bits True s₀ s₀.objs (fun _ => 0) (fun _ => 0) s)
    (hform : Formed order false 0 s₀.objs.tree) (slabs : Slabs) (hp : ¬ a.Placed)
    (hflag : has a.flags memUtcb = true) (hpos : 0 < a.size) (hpage : a.size % 2 ^ bits = 0)
    (hsize : a.size < 2 ^ 63) :
    Wp (sysJudge bits) (objtableSetupUtcb bits order slabs a.size a.flags) s
      (Settled bits order a slabs s₀) := by
  refine wp_bind (wp_onlyIf (fun hno => absurd hflag (by rw [hno]; decide)) fun _ => ?_)
  refine wp_bind ((h.allocChunk hb h12 hpage hsize).mono ?_)
  rintro base s₁ (⟨rfl, h₁⟩ | ⟨hal, hfit, h₁⟩)
  · exact wp_ite (fun _ => wp_pure (.failed (by decide) hform h₁)) fun hno => absurd rfl hno
  refine wp_ite (fun heq => absurd heq (hb.ne_invalidAddr hal)) fun _ => ?_
  rw [wordAdd_wordSub_one hpos (Nat.le_of_lt hfit)]
  refine wp_bind ((h₁.enter hb h12 ho hform slabs.pad _).mono ?_)
  rintro r s₂ ⟨rfl, t, ht, hent, h₂⟩
  exact wp_ite (fun hne => absurd rfl hne) fun _ => wp_pure (.taken hp hpos hfit ht hent h₂)

/-- **`objtable_setup_internal`.** -/
theorem objtableSetupInternal_settled (h : Held bits True s₀ s₀.objs (fun _ => 0) (fun _ => 0) s)
    (hform : Formed order false 0 s₀.objs.tree) (slabs : Slabs) (hp : a.Placed)
    (hflag : has a.flags memInternal = true) (hu : a.Unused bits s₀) :
    Wp (sysJudge bits) (objtableSetupInternal bits order slabs a.size a.base a.flags) s
      (Settled bits order a slabs s₀) := by
  obtain ⟨hpos, hfit, -⟩ := hu hp
  refine wp_bind (wp_onlyIf (fun hno => absurd hflag (by rw [hno]; decide)) fun _ => ?_)
  rw [wordAdd_wordSub_one hpos hfit]
  refine wp_bind ((h.enter hb h12 ho hform slabs.pad _).mono ?_)
  rintro r s₁ ⟨rfl, t, ht, hent, h₁⟩
  exact wp_pure (.placed hp hpos hfit ht hent h₁)

/-- **`objtable_setup_fixed`.** -/
theorem objtableSetupFixed_settled (h : Held bits True s₀ s₀.objs (fun _ => 0) (fun _ => 0) s)
    (hform : Formed order false 0 s₀.objs.tree) (slabs : Slabs) (hnormal : has a.flags memNormal = false)
    (hflag : has a.flags memFixed = true) (hspan : Span bits a.base (a.base + a.size - 1))
    (hu : a.Unused bits s₀) :
    Wp (sysJudge bits) (objtableSetupFixed bits order slabs a.size a.base a.flags a.pagesize) s
      (Settled bits order a slabs s₀) := by
  have hp : a.Placed := ⟨hnormal, .inl hflag⟩
  obtain ⟨hpos, hfit, hunused⟩ := hu hp
  have hnone : ∀ x, a.base ≤ x → x ≤ a.base + a.size - 1 → account bits .vm s₀ x = 0 := by
    intro x hlo hhi
    have hzero := hunused x hlo (by omega)
    rw [charge] at hzero
    omega
  refine wp_bind (wp_onlyIf (fun hno => absurd hflag (by rw [hno]; decide)) fun _ => ?_)
  rw [wordAdd_wordSub_one hpos hfit, wordAdd_sub_one hpos hfit]
  refine wp_bind ((h.enter hb h12 ho hform slabs.pad _).mono ?_)
  rintro r s₁ ⟨rfl, t, ht, hent, h₁⟩
  refine wp_ite (fun hne => absurd rfl hne) fun _ => ?_
  refine wp_bind ((h₁.removeUnused hb h12 ⟨hspan.base_aligned, hspan.end_aligned⟩ hnone).mono ?_)
  intro _ s₂ h₂
  refine wp_ite (fun _ => wp_pure (.placed hp hpos hfit ht hent h₂)) fun huser => ?_
  refine wp_bind ((h₂.allocList hb h12 _ _ _).mono ?_)
  rintro l s₃ ⟨-, h₃⟩
  refine wp_ite (fun hempty => ?_) fun _ => wp_pure (.placed hp hpos hfit ht hent h₃)
  subst hempty
  refine wp_bind ((fpageFreeChunk_wp hb (linkedContract hb h12 .vm s₃) s₃ (Beside.refl h₃.inv .vm)
    (h₃.inv .vm) hspan).mono ?_)
  rintro _ s₄ ⟨hB, ha, hgained, -⟩
  -- nothing of the range was free before, and all of it is now
  have hbacks : a.BacksFixed := ⟨hnormal, hflag, Bool.eq_false_iff.mpr huser⟩
  have hend : a.base + a.size - 1 + 1 - a.base = a.size := by omega
  have h₄ : Held bits False s₀ { s₀.objs with tree := t } (fun _ => 0) (fun _ => 0) s₄ :=
    (h₃.weaken False.elim).on_vm hB ha fun hno => hno.elim
  refine wp_pure ⟨(h₄.kinv ht).formed, fun hzero => absurd (show (-1 : Int) = 0 from hzero) (by decide),
    fun _ => ?_⟩
  refine ⟨h₄.inv, by rw [h₄.objs], by rw [h₄.objs], fun hno => absurd hbacks hno, fun x => ?_,
    fun x => ?_, h₄.pools⟩
  · have hx : account bits .vm s₄ x =
        account bits .vm s₃ x + span a.base (a.base + a.size - 1 + 1 - a.base) x := hgained.2 trivial x
    have hbefore := h₃.vm trivial x
    rw [if_pos hbacks]
    rw [hend] at hx
    omega
  · have hx := h₄.pm x
    omega

/-- Whatever the flags. -/
theorem setup_settled (h : Held bits True s₀ s₀.objs (fun _ => 0) (fun _ => 0) s)
    (hform : Formed order false 0 s₀.objs.tree) (ha : a.Proper bits) (hu : a.Unused bits s₀)
    (slabs : Slabs) :
    Wp (sysJudge bits) (setup bits order a slabs) s (Settled bits order a slabs s₀) := by
  refine wp_ite (fun hnormal => ?_) fun hnormal => ?_
  · obtain ⟨hpos, hpage, hsize⟩ := ha.sized (.inl hnormal)
    exact objtableSetup_settled hb h12 ho h hform slabs hnormal hpos hpage hsize
  have hnormal' := Bool.eq_false_iff.mpr hnormal
  refine wp_ite (fun hfixed => ?_) fun hfixed => ?_
  · obtain ⟨-, hspan⟩ := ha.fixed hnormal' hfixed
    exact objtableSetupFixed_settled hb h12 ho h hform slabs hnormal' hfixed hspan hu
  have hfixed' := Bool.eq_false_iff.mpr hfixed
  refine wp_ite (fun hutcb => ?_) fun hutcb => wp_ite (fun hinternal => ?_) fun _ => ?_
  · obtain ⟨hpos, hpage, hsize⟩ := ha.sized (.inr ⟨hfixed', hutcb⟩)
    have hp : ¬ a.Placed := by
      rintro ⟨-, hyes | hno⟩
      · exact hfixed hyes
      · exact absurd (hutcb.symm.trans hno) (by decide)
    exact objtableSetupUtcb_settled hb h12 ho h hform slabs hp hutcb hpos hpage hsize
  · have hp : a.Placed := ⟨hnormal', .inr (Bool.eq_false_iff.mpr hutcb)⟩
    exact objtableSetupInternal_settled hb h12 ho h hform slabs hp hinternal hu
  · exact wp_pure (.failed (by decide) hform h)

omit hb h12 ho in
theorem Made.created {slabs : Slabs} {m : Memsection} (h : Made bits order a slabs s₀ m s) :
    Created bits order a slabs s₀ m { s with objs := { s.objs with
      sections := s.objs.sections ++
        [(if s₀.objs.initialized then some a.self else none, m)] } } := by
  obtain ⟨t, dp, hent, hheld⟩ := h.held
  have hobjs := hheld.objs
  refine ⟨fun w => ?_, h.addr, h.le, h.fits, h.range, ?_, ?_, ?_, hheld.vm trivial, fun x => ?_,
    hheld.pools⟩
  · have := hheld.inv w
    cases w <;> exact this
  · show s.objs.sections ++ _ = _
    rw [hobjs]
  · show s.objs.initialized = _
    rw [hobjs]
  · show Entered order slabs.pad s₀.objs m s.objs.tree
    rw [hobjs]
    exact hent
  · have hx := hheld.pm x
    show account bits .pm s x ≤ _
    omega

omit hb h12 ho in
theorem Failed.credit (h : Failed bits a s₀ s) (c : Cache) : Failed bits a s₀ (s.credit c) := by
  refine ⟨fun w => ?_, h.sections, h.initialized, h.tree, fun x => ?_, fun x => ?_, h.pools⟩
  · rw [Sys.side_credit]
    exact h.inv w
  · simp only [account, Sys.side_credit]
    exact h.vm x
  · simp only [account, Sys.side_credit]
    exact h.pm x

/-- **`sys$pd_create_memsection`.**  It has created a memsection or failed. -/
theorem pdCreateMemsection_settled (hK : KInv bits order s) (ha : a.Proper bits)
    (hu : a.Unused bits s) (slabs : Slabs) :
    Wp (sysJudge bits) (pdCreateMemsection bits order a slabs) s fun r s' =>
      Formed order false 0 s'.objs.tree ∧ (∀ m, r = some m → Created bits order a slabs s m s') ∧
        (r = none → Failed bits a s s') := by
  have h₀ : Held bits True s s.objs (fun _ => 0) (fun _ => 0) s := Held.refl hK.inv
  refine wp_bind (wp_read (wp_bind ((h₀.slab hb h12 .ms).mono ?_)))
  rintro node s₁ ⟨rfl, h₁⟩
  refine wp_bind ((setup_settled hb h12 ho h₁ hK.formed ha hu slabs).mono ?_)
  rintro r s₂ ⟨hform, hmade, hfailed⟩
  refine wp_ite (fun hr => ?_) fun hr => ?_
  · refine wp_bind (wp_update (wp_pure ⟨hform, fun m hno => ?_, fun _ => (hfailed hr).credit .ms⟩))
    cases hno
  · refine wp_bind (wp_update (wp_pure ⟨hform, fun m hm => ?_, fun hno => ?_⟩))
    · obtain rfl := Option.some.inj hm
      exact (hmade (not_not.mp hr)).created
    · cases hno

end

end

/-! ### Runs -/

section

variable {bits order : Nat} {s s' : Sys}

theorem sectionCover_append (l : List (Option Nat × Memsection)) (list : Option Nat) (m : Memsection)
    (x : Nat) :
    sectionCover (l ++ [(list, m)]) x = sectionCover l x + span m.base (m.end_ + 1 - m.base) x := by
  simp only [sectionCover, weight_append, weight_cons, weight_nil, Nat.add_zero]

/-- A memsection takes its addresses out of the account, or they were in no use. -/
theorem Created.charge_le {a : Args} {slabs : Slabs} {m : Memsection} (ha : a.Unused bits s)
    (h : Created bits order a slabs s m s') (hs : ∀ x, charge bits s x ≤ 1) (x : Nat) :
    charge bits s' x ≤ 1 := by
  have hbefore := hs x
  have haccount := h.vm x
  have hle := span_le_one m.base (m.end_ + 1 - m.base) x
  rw [charge] at hbefore ⊢
  rw [h.sections, sectionCover_append]
  by_cases hp : a.Placed
  · rw [if_pos hp] at haccount
    obtain ⟨hpos, -, hunused⟩ := ha hp
    obtain ⟨hbase, hend⟩ := h.range hp
    by_cases hin : a.base ≤ x ∧ x < a.base + a.size
    · have hzero := hunused x hin.1 hin.2
      rw [charge] at hzero
      omega
    · have hout : span m.base (m.end_ + 1 - m.base) x = 0 := span_eq_zero.mpr (by omega)
      omega
  · rw [if_neg hp] at haccount
    omega

theorem Failed.charge_le {a : Args} (ha : a.Unused bits s) (h : Failed bits a s s')
    (hs : ∀ x, charge bits s x ≤ 1) (x : Nat) : charge bits s' x ≤ 1 := by
  have hbefore := hs x
  have haccount := h.vm x
  rw [charge] at hbefore ⊢
  rw [h.sections]
  by_cases hback : a.BacksFixed
  · rw [if_pos hback] at haccount
    have hle := span_le_one a.base a.size x
    obtain ⟨-, -, hunused⟩ := ha ⟨hback.1, .inl hback.2.1⟩
    by_cases hin : a.base ≤ x ∧ x < a.base + a.size
    · have hzero := hunused x hin.1 hin.2
      rw [charge] at hzero
      omega
    · have hout : span a.base a.size x = 0 := span_eq_zero.mpr hin
      omega
  · rw [if_neg hback] at haccount
    omega

/-- What the callers see to besides: nothing of a memsection is given to `vm_alloc`, and nothing lies
    where a memsection is wanted. -/
def KernelCall.Apart (bits : Nat) (s : Sys) : KernelCall → Prop
  | sys c => ∀ x, 0 < c.freed .vm x → sectionCover s.objs.sections x = 0
  | create a _ => a.Unused bits s
  | pdInit => True

/-- The invariant of the runs. -/
structure Counted (bits order : Nat) (s : Sys) : Prop where
  kernel : KInv bits order s
  proper : ∀ e ∈ s.objs.sections, e.2.base ≤ e.2.end_ ∧ e.2.end_ < wordSize
  once : ∀ x, charge bits s x ≤ 1
  physical : ∀ x, account bits .pm s x ≤ 1

theorem counted_init : Counted bits order Sys.init := by
  have h : Linked bits Sys.init := linked_init
  exact ⟨⟨h.inv, .inl rfl⟩, fun e he => absurd he List.not_mem_nil, h.once .vm, h.once .pm⟩

theorem Counted.created {a : Args} {slabs : Slabs} {m : Memsection} (hC : Counted bits order s)
    (ha : a.Unused bits s) (hform : Formed order false 0 s'.objs.tree)
    (h : Created bits order a slabs s m s') : Counted bits order s' := by
  refine ⟨⟨h.inv, hform⟩, fun e he => ?_, h.charge_le ha hC.once, fun x => ?_⟩
  · rw [h.sections] at he
    rcases List.mem_append.mp he with he | he
    · exact hC.proper e he
    · obtain rfl := List.mem_singleton.mp he
      exact ⟨h.le, h.fits⟩
  · exact Nat.le_trans (h.pm x) (hC.physical x)

theorem Counted.failed {a : Args} (hC : Counted bits order s) (ha : a.Unused bits s)
    (hform : Formed order false 0 s'.objs.tree) (h : Failed bits a s s') : Counted bits order s' := by
  refine ⟨⟨h.inv, hform⟩, fun e he => ?_, h.charge_le ha hC.once, fun x => ?_⟩
  · rw [h.sections] at he
    exact hC.proper e he
  · exact Nat.le_trans (h.pm x) (hC.physical x)

/-- Two memsections with an address in common are counted twice there. -/
theorem pairwise_of_sectionCover {l : List (Option Nat × Memsection)}
    (h : ∀ x, sectionCover l x ≤ 1) : l.Pairwise fun e f => ¬ Meets e.2 f.2 := by
  refine (pairwise_of_weight h).imp fun {e f} hle => ?_
  rintro ⟨x, ⟨hex, hex'⟩, hfx, hfx'⟩
  have hone := hle x
  have he : span e.2.base (e.2.end_ + 1 - e.2.base) x = 1 := span_eq_one.mpr (by omega)
  have hf : span f.2.base (f.2.end_ + 1 - f.2.base) x = 1 := span_eq_one.mpr (by omega)
  omega

theorem Counted.exclusive (hC : Counted bits order s) : Exclusive bits s := by
  refine ⟨hC.proper, pairwise_of_sectionCover fun x => ?_, fun e he x hx => ?_, hC.once, hC.physical⟩
  · have hx := hC.once x
    rw [charge] at hx
    omega
  · have hone : span e.2.base (e.2.end_ + 1 - e.2.base) x = 1 := span_eq_one.mpr (by
      have h1 := hx.1
      have h2 := hx.2
      omega)
    have hle : span e.2.base (e.2.end_ + 1 - e.2.base) x ≤ sectionCover s.objs.sections x :=
      le_weight_of_mem (w := fun e : Option Nat × Memsection =>
        span e.2.base (e.2.end_ + 1 - e.2.base) x) he
    have hsum : own s.vm x + poolCover bits .vm s.pools x + sectionCover s.objs.sections x ≤ 1 :=
      hC.once x
    refine ⟨by omega, fun p hp hpage => ?_⟩
    have hpool : span p.virt (2 ^ bits) x ≤ poolCover bits .vm s.pools x :=
      le_weight_of_mem (w := fun p : Pool => span (p.page .vm) (2 ^ bits) x) hp
    have hin : span p.virt (2 ^ bits) x = 1 := span_eq_one.mpr hpage
    omega

variable (hb : PageBits bits) (h12 : 12 ≤ bits) (ho : ValidOrder order)

include hb h12 ho

/-- **One call.** -/
theorem Counted.exec_wp {c : KernelCall} (hC : Counted bits order s) (hlegal : c.Legal bits s)
    (hapart : c.Apart bits s) :
    Wp (sysJudge bits) (c.exec bits order) s fun _ s' => Counted bits order s' := by
  cases c with
  | sys c =>
    refine wp_bind ((SysCall.exec_wp hb h12 hC.kernel.inv hlegal).mono ?_)
    rintro es s' ⟨h1, h2, h3⟩
    have hvm : ∀ w x, account bits w s x ≤ 1 := by
      intro w x
      cases w with
      | vm => exact Nat.le_trans (Nat.le_add_right _ _) (hC.once x)
      | pm => exact hC.physical x
    have hsum := SysCall.Legal.apart hlegal hvm
    refine wp_pure ⟨⟨h1, by rw [h2]; exact hC.kernel.formed⟩, by rw [h2]; exact hC.proper,
      fun x => ?_, fun x => Nat.le_trans (h3 .pm x) (hsum .pm x)⟩
    have hafter := h3 .vm x
    have hbefore := hC.once x
    rw [charge] at hbefore ⊢
    rw [h2]
    by_cases hfree : 0 < c.freed .vm x
    · have hnone := hapart x hfree
      have hone := hsum .vm x
      omega
    · omega
  | create a slabs =>
    refine wp_bind ((pdCreateMemsection_settled hb h12 ho hC.kernel hlegal hapart slabs).mono ?_)
    rintro r s' ⟨hform, hsome, hnone⟩
    cases r with
    | some m => exact wp_pure (hC.created hapart hform (hsome m rfl))
    | none => exact wp_pure (hC.failed hapart hform (hnone rfl))
  | pdInit =>
    refine wp_update ⟨⟨fun w => ?_, hC.kernel.formed⟩, hC.proper, hC.once, hC.physical⟩
    have := hC.kernel.inv w
    cases w <;> exact this

end

/-- No flexpage, range, pool or memsection of the state reaches into `[base, base + size)`. -/
def Args.Vacant (bits : Nat) (a : Args) (s : Sys) : Prop :=
  a.Placed → 0 < a.size ∧ a.base + a.size ≤ wordSize ∧
    (∀ i < maxFpageOrder + 1, ∀ f ∈ s.vm.flist i,
      a.base + a.size ≤ l4Address f ∨ l4Address f + l4Size f ≤ a.base) ∧
    (a.base + a.size ≤ s.vm.base ∨ s.vm.base + s.vm.rangeSize ≤ a.base) ∧
    (∀ p ∈ s.pools, a.base + a.size ≤ p.virt ∨ p.virt + 2 ^ bits ≤ a.base) ∧
    ∀ e ∈ s.objs.sections, a.base + a.size ≤ e.2.base ∨ e.2.end_ < a.base

instance (bits : Nat) (a : Args) (s : Sys) : Decidable (a.Vacant bits s) :=
  inferInstanceAs (Decidable (_ → _))

theorem Args.Vacant.unused {bits : Nat} {a : Args} {s : Sys} (h : a.Vacant bits s) :
    a.Unused bits s := by
  intro hp
  obtain ⟨hpos, hfit, hlists, hrange, hpools, hsections⟩ := h hp
  refine ⟨hpos, hfit, fun x hlo hhi => ?_⟩
  have hfree : total (fpageSpan x) s.vm.flist (maxFpageOrder + 1) = 0 := by
    refine total_eq_zero fun i hi f hf => span_eq_zero.mpr fun hin => ?_
    have := hlists i hi f hf
    omega
  have hinternal : span s.vm.base s.vm.rangeSize x = 0 := span_eq_zero.mpr (by omega)
  have hpool : poolCover bits .vm s.pools x = 0 := by
    refine weight_eq_zero fun p hpool => span_eq_zero.mpr fun hin => ?_
    have hin' : p.virt ≤ x ∧ x < p.virt + 2 ^ bits := hin
    have := hpools p hpool
    omega
  have hsection : sectionCover s.objs.sections x = 0 := by
    refine weight_eq_zero fun e he => span_eq_zero.mpr fun hin => ?_
    have := hsections e he
    omega
  show total (fpageSpan x) s.vm.flist (maxFpageOrder + 1) + span s.vm.base s.vm.rangeSize x +
    poolCover bits .vm s.pools x + sectionCover s.objs.sections x = 0
  omega

/-- The heap of the kernel, `sys$pd_init`, a preloaded object, and a stack, a UTCB area and a segment at
    a fixed address for a domain. -/
def firstSections : List KernelCall :=
  [.sys (.on .vm .clearInternal), .create ⟨0, 0x40000, 0, 0x9, 0x1000⟩ ⟨0x40001060, fun _ => 0⟩,
    .pdInit,
    .create ⟨0, 0x1ff000, 0x2000000, 0x10, 0x1000⟩ ⟨0x400010c0, fun _ => 0⟩,
    .create ⟨1, 0x2000, 0, 0x1, 0x1000⟩ ⟨0x40001120, fun _ => 0⟩,
    .create ⟨1, 0x10000, 0, 0x4, 0x1000⟩ ⟨0x40001180, fun _ => 0⟩,
    .create ⟨1, 0x3000, 0x10000000, 0x2, 0x1000⟩ ⟨0x400011e0, fun _ => 0⟩]

/-- These creations after the beginning of `sys$bootstrap`. -/
def populated : List KernelCall := (boot 256).map .sys ++ firstSections

/-- What of `Legal` and `Apart` the calls of `populated` have to be run for. -/
def KernelCall.Checked (s : Sys) : KernelCall → Prop
  | sys _ => s.objs.sections = []
  | create a _ => a.Vacant 12 s
  | pdInit => True

instance (s : Sys) : DecidablePred (KernelCall.Checked s)
  | .sys _ => decidable_of_iff (s.objs.sections.isEmpty = true) List.isEmpty_iff
  | .create a _ => inferInstanceAs (Decidable (a.Vacant 12 s))
  | .pdInit => isTrue trivial

theorem KernelCall.Checked.apart {c : KernelCall} {s : Sys} (h : c.Checked s) : c.Apart 12 s := by
  cases c with
  | sys c =>
    have hnil : s.objs.sections = [] := h
    intro x _
    rw [hnil]
    rfl
  | create a slabs =>
    have hvacant : a.Vacant 12 s := h
    exact hvacant.unused
  | pdInit => exact trivial

theorem firstSections_legal {c : KernelCall} (hc : c ∈ firstSections) (s : Sys) : c.Legal 12 s := by
  simp only [firstSections, List.mem_cons, List.not_mem_nil, or_false] at hc
  rcases hc with rfl | rfl | rfl | rfl | rfl | rfl | rfl
  · exact ⟨trivial, trivial, fun x hx => absurd hx (Nat.lt_irrefl 0)⟩
  · exact ⟨fun _ => by decide, fun hno _ => absurd hno (by decide)⟩
  · exact trivial
  · exact ⟨fun hno => absurd hno (by decide), fun _ hno => absurd hno (by decide)⟩
  · exact ⟨fun _ => by decide, fun hno _ => absurd hno (by decide)⟩
  · exact ⟨fun _ => by decide, fun _ hno => absurd hno (by decide)⟩
  · exact ⟨fun hno => absurd hno (by decide), fun _ _ =>
      ⟨by decide, by decide, by decide, by decide, by decide, by decide⟩⟩

theorem populated_legal :
    Along (kernelStep 12 255) (fun c s => c.Legal 12 s ∧ c.Apart 12 s ∧ c.Fed 12 255 s) populated
      Sys.init := by
  have hchecked : Along (kernelStep 12 255) (fun c s => c.Checked s ∧ c.Fed 12 255 s) populated
      Sys.init := by decide +kernel
  have hlegal : Along (kernelStep 12 255) (fun c s => c.Legal 12 s) populated Sys.init := by
    have hvm : kernelStep 12 255 (.sys (.on .vm (.freeInternal 0x40000000 0x40ffffff))) Sys.init =
        .ok bootVm := rfl
    refine .cons hvm ?_ ⟨?_, fun s _ => Along.of_forall (fun c hc s => firstSections_legal hc s) s⟩
    · exact ⟨⟨⟨by decide, by decide⟩, by decide, by decide, fun x _ _ => own_empty x⟩,
        ⟨by decide, fun h => absurd h (by decide)⟩, fun _ _ => rfl⟩
    · exact ⟨⟨⟨by decide, by decide⟩, by decide, by decide, fun x _ _ => own_empty x⟩,
        ⟨by decide, fun h => absurd h (by decide)⟩, fun _ _ => rfl⟩
  exact (hlegal.and hchecked).mono fun c s h => ⟨h.1, h.2.1.apart, h.2.2⟩

end FreeVMS.Kernel.Sections
