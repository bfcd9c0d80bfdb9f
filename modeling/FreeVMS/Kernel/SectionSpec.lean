import FreeVMS.Kernel.Section
import FreeVMS.Kernel.Reentry

/-!
# What a failed creation leaves behind

The requests of `sys$pd_create_memsection` to the slab caches are granted or end in a panic,
so what fails is the search for virtual or for physical memory.  Up to there the setup
functions give back what they took, with one exception: `objtable_setup_fixed` has already
put the memsection into the object table and removed its range from `vm_alloc`, and only
frees the range.
-/

namespace FreeVMS.Kernel.Sections

open Trace Cover Run Alloc BTree

/-- The allocators are in order and the tree has its shape. -/
structure KInv (bits order : Nat) (s : Sys) : Prop where
  inv : SInv bits s
  formed : Formed order false 0 s.objs.tree

/-- In the middle of a call that began in `s₀`: `dv` and `dp` are taken out of the accounts, and
    `O` is the object table.  Without `W` nothing is said about virtual memory. -/
structure Held (bits : Nat) (W : Prop) (s₀ : Sys) (O : Objects) (dv dp : Nat → Nat) (s : Sys) :
    Prop where
  inv : SInv bits s
  vm : W → ∀ x, account bits .vm s x + dv x = account bits .vm s₀ x
  pm : ∀ x, account bits .pm s x + dp x = account bits .pm s₀ x
  pools : ∃ t, s.pools = s₀.pools ++ t
  objs : s.objs = O

/-- The memsection is at a fixed address and is to be backed. -/
def Args.BacksFixed (a : Args) : Prop :=
  has a.flags memNormal = false ∧ has a.flags memFixed = true ∧ has a.flags memUser = false

/-- What the callers see to: sizes and fixed ranges are of whole pages and in reach of the
    allocators. -/
structure Args.Proper (bits : Nat) (a : Args) : Prop where
  sized : has a.flags memNormal = true ∨ has a.flags memFixed = false ∧ has a.flags memUtcb = true →
    0 < a.size ∧ a.size % 2 ^ bits = 0 ∧ a.size < 2 ^ 63
  fixed : has a.flags memNormal = false → has a.flags memFixed = true →
    0 < a.size ∧ Span bits a.base (a.base + a.size - 1)

/-- After `sys$pd_create_memsection` has returned `NULL`: the lists are as before, and what was
    free is free or part of a new pool.  For a fixed memsection that could not be backed nothing
    is said about the tree and about virtual memory. -/
structure Undone (bits : Nat) (a : Args) (s s' : Sys) : Prop where
  lists : s'.objs.sections = s.objs.sections
  initialized : s'.objs.initialized = s.objs.initialized
  tree : ¬ a.BacksFixed → s'.objs.tree = s.objs.tree
  memory : ∃ t, s'.pools = s.pools ++ t ∧ ∀ w, (w = .vm → ¬ a.BacksFixed) →
    ∀ x, own (s'.side w) x + poolCover bits w t x = own (s.side w) x

theorem wordAdd_wordSub_one {x y : Nat} (hy : 0 < y) (h : x + y ≤ wordSize) :
    wordAdd x (wordSub y 1) = x + y - 1 := by
  have hsub : wordSub y 1 = y - 1 := by
    rw [wordSub, show y + (wordSize - 1) = y - 1 + wordSize by omega, Nat.add_mod_right,
      Nat.mod_eq_of_lt (by omega)]
  rw [wordAdd, hsub, Nat.mod_eq_of_lt (by omega)]
  omega

section

variable {bits order : Nat} {W : Prop} {s₀ s s' : Sys} {O : Objects} {dv dp d : Nat → Nat}

theorem Held.refl (h : SInv bits s) : Held bits W s s.objs (fun _ => 0) (fun _ => 0) s :=
  ⟨h, fun _ _ => rfl, fun _ => rfl, ⟨[], (List.append_nil _).symm⟩, rfl⟩

theorem Held.drawn {n : Nat} (h : Held bits W s₀ O dv dp s) (hd : Drawn bits n s s') :
    Held bits W s₀ O dv dp s' := by
  obtain ⟨t, ht⟩ := h.pools
  obtain ⟨t', ht'⟩ := hd.pools
  refine ⟨hd.inv, fun hW x => ?_, fun x => ?_, ⟨t ++ t', by rw [ht', ht, List.append_assoc]⟩,
    hd.objs.trans h.objs⟩
  · rw [hd.account]
    exact h.vm hW x
  · rw [hd.account]
    exact h.pm x

/-- A call on `vm_alloc`. -/
theorem Held.on_vm (h : Held bits W s₀ O dv dp s) (hB : Beside bits .vm s s')
    (ha : AInv bits s'.vm) (hacct : W → ∀ x, account bits .vm s' x + d x = account bits .vm s₀ x) :
    Held bits W s₀ O d dp s' := by
  obtain ⟨t, ht⟩ := h.pools
  obtain ⟨t', ht'⟩ := hB.pools
  refine ⟨hB.sinv ha, hacct, fun x => ?_, ⟨t ++ t', by rw [ht', ht, List.append_assoc]⟩,
    hB.objs.trans h.objs⟩
  rw [show account bits .pm s' = account bits .pm s from hB.account]
  exact h.pm x

/-- A call on `pm_alloc`. -/
theorem Held.on_pm (h : Held bits W s₀ O dv dp s) (hB : Beside bits .pm s s')
    (ha : AInv bits s'.pm) (hacct : ∀ x, account bits .pm s' x + d x = account bits .pm s₀ x) :
    Held bits W s₀ O dv d s' := by
  obtain ⟨t, ht⟩ := h.pools
  obtain ⟨t', ht'⟩ := hB.pools
  refine ⟨hB.sinv ha, fun hW x => ?_, hacct, ⟨t ++ t', by rw [ht', ht, List.append_assoc]⟩,
    hB.objs.trans h.objs⟩
  rw [show account bits .vm s' = account bits .vm s from hB.account]
  exact h.vm hW x

theorem Held.credit (h : Held bits W s₀ O dv dp s) (c : Cache) :
    Held bits W s₀ O dv dp (s.credit c) := by
  refine ⟨fun w => ?_, fun hW x => ?_, fun x => ?_, h.pools, h.objs⟩
  · rw [Sys.side_credit]
    exact h.inv w
  · rw [← h.vm hW x]
    simp only [account, Sys.side_credit]
    rfl
  · rw [← h.pm x]
    simp only [account, Sys.side_credit]
    rfl

/-- Nothing is taken any more: what was free is free, or part of a pool that was made on the
    way. -/
theorem Held.undone {a : Args} {t : BTreeS} (ht : ¬ a.BacksFixed → t = s₀.objs.tree)
    (h : Held bits (¬ a.BacksFixed) s₀ { s₀.objs with tree := t } (fun _ => 0) (fun _ => 0) s) :
    Undone bits a s₀ s := by
  obtain ⟨p, hp⟩ := h.pools
  have hsplit : ∀ w x, poolCover bits w s.pools x =
      poolCover bits w s₀.pools x + poolCover bits w p x := fun w x => by
    rw [hp]
    exact weight_append _ _ _
  refine ⟨by rw [h.objs], by rw [h.objs], fun hno => by rw [h.objs]; exact ht hno, p, hp, ?_⟩
  intro w hw x
  have hsum : account bits w s x = account bits w s₀ x := by
    cases w with
    | vm => exact h.vm (hw rfl) x
    | pm => exact h.pm x
  simp only [account, hsplit] at hsum
  omega

section

variable (hb : PageBits bits) (h12 : 12 ≤ bits)

include hb h12

theorem Held.slab (h : Held bits W s₀ O dv dp s) (c : Cache) :
    Wp (sysJudge bits) (slabCacheAlloc bits reentryDepth c) s fun r s' =>
      r = true ∧ Held bits W s₀ O dv dp s' := by
  refine (slabCacheAlloc_wp hb h12 1 c s h.inv).mono ?_
  rintro r s' ⟨hr, hd⟩
  exact ⟨hr, h.drawn hd⟩

theorem Held.askPages (h : Held bits W s₀ O dv dp s) (n i : Nat) :
    Wp (sysJudge bits) (askPages bits n i) s fun r s' =>
      r = none ∧ Held bits W s₀ O dv dp s' := by
  induction n generalizing s i with
  | zero => exact wp_pure ⟨rfl, h⟩
  | succ n ih =>
    refine wp_bind ((h.slab hb h12 .bt).mono ?_)
    rintro r s' ⟨rfl, h'⟩
    exact ih h' (i + 1)

theorem Held.allocChunk (h : Held bits W s₀ O (fun _ => 0) dp s) {size : Nat}
    (hpage : size % 2 ^ bits = 0) (hsize : size < 2 ^ 63) :
    Wp (sysJudge bits) (fpageAllocChunk (linkedEnv bits .vm) bits size) s fun mem s' =>
      (mem = invalidAddr ∧ Held bits W s₀ O (fun _ => 0) dp s') ∨
      (mem % 2 ^ bits = 0 ∧ mem + size < wordSize ∧ Held bits W s₀ O (span mem size) dp s') := by
  refine (fpageAllocChunk_wp hb (linkedContract hb h12 .vm s) trivial s (Beside.refl h.inv .vm)
    (h.inv .vm) hpage (Nat.le_of_lt hsize)).mono ?_
  rintro mem s' ⟨h1, h2, ⟨h3, h4, -⟩ | ⟨h3, h4, h5, -⟩⟩
  · refine Or.inl ⟨h3, h.on_vm h1 h2 fun hW x => ?_⟩
    rw [show account bits .vm s' = account bits .vm s from h4]
    exact h.vm hW x
  · refine Or.inr ⟨h3, h4, h.on_vm h1 h2 fun hW x => ?_⟩
    have hx : account bits .vm s' x + span mem size x = account bits .vm s x := h5 x
    rw [hx]
    exact h.vm hW x

theorem Held.allocList (h : Held bits W s₀ O dv (fun _ => 0) s) (base end_ pagesize : Nat) :
    Wp (sysJudge bits) (fpageAllocList (linkedEnv bits .pm) bits base end_ pagesize) s fun l s' =>
      Blocks bits l ∧ Held bits W s₀ O dv (coverList l) s' := by
  refine (fpageAllocList_wp hb (linkedContract hb h12 .pm s) trivial s (Beside.refl h.inv .pm)
    (h.inv .pm) base end_ pagesize).mono ?_
  rintro l s' ⟨h1, h2, h3, h4, -⟩
  refine ⟨h3, h.on_pm h1 h2 fun x => ?_⟩
  have hx : account bits .pm s' x + coverList l x = account bits .pm s x := h4 x
  rw [hx]
  exact h.pm x

theorem Held.freeChunk {base end_ : Nat} (h : Held bits W s₀ O (span base (end_ + 1 - base)) dp s)
    (hspan : Span bits base end_) :
    Wp (sysJudge bits) (fpageFreeChunk (linkedEnv bits .vm) bits base end_) s fun _ s' =>
      Held bits W s₀ O (fun _ => 0) dp s' := by
  refine (fpageFreeChunk_wp hb (linkedContract hb h12 .vm s) s (Beside.refl h.inv .vm) (h.inv .vm)
    hspan).mono ?_
  rintro _ s' ⟨h1, h2, h3, -⟩
  refine h.on_vm h1 h2 fun hW x => ?_
  have hx : account bits .vm s' x = account bits .vm s x + span base (end_ + 1 - base) x :=
    h3.2 trivial x
  rw [hx]
  exact h.vm hW x

theorem Held.removeChunk {base end_ : Nat} (h : Held bits False s₀ O dv dp s)
    (hp : Paged bits base end_) :
    Wp (sysJudge bits) (fpageRemoveChunk (linkedEnv bits .vm) bits base end_) s fun _ s' =>
      Held bits False s₀ O dv dp s' := by
  refine (fpageRemoveChunk_wp hb (linkedContract hb h12 .vm s) hp s (Beside.refl h.inv .vm)
    (h.inv .vm)).mono ?_
  rintro _ s' ⟨h1, h2, -, -⟩
  exact h.on_vm h1 h2 fun hno => hno.elim

variable (ho : ValidOrder order)

include ho

/-- **`objtable_insert`.**  With every page granted, the insertion reports success. -/
theorem Held.insert (h : Held bits W s₀ O dv dp s) (hform : Formed order false 0 O.tree)
    (pad : Nat → Nat) (o : Memsection) :
    Wp (sysJudge bits) (objtableInsert bits order pad o) s fun r s' =>
      r = 0 ∧ ∃ t, Formed order false 0 t ∧
        (O.initialized = true → refusal o O.tree.root = none → o ∈ BTree.objs t.root) ∧
        Held bits W s₀ { O with tree := t } dv dp s' := by
  have hinit : s.objs.initialized = O.initialized := by rw [h.objs]
  refine wp_bind (wp_read (wp_ite (fun _ => ?_) fun hno => ?_))
  swap
  · exact wp_pure ⟨rfl, O.tree, hform, fun hyes => absurd (hinit.trans hyes) hno, h⟩
  have hgrant : ∀ i, (pagesBut pad none).grant i ≠ none := fun i => by simp [pagesBut]
  have hformed : Formed order false 0 s.objs.tree := by
    rw [h.objs]
    exact hform
  obtain ⟨out, hout, -, hform', hstep⟩ := objBTIns_spec ho (Nat.zero_le _) hformed
    (fun hno => absurd hno (by decide)) .null (pagesBut pad none)
  obtain ⟨r, hins, hzero⟩ := insert_code_zero_iff hout
  have hok : out.status = .ok := by
    cases hstep with
    | refused _ _ hstatus _ => exact hstatus
    | stored _ _ hstatus _ => exact hstatus
    | starved _ hfail =>
      obtain ⟨i, -, hnone⟩ := hfail
      exact absurd hnone (hgrant _)
    | rootless _ _ _ hfail => exact absurd hfail (hgrant _)
  have hstored : refusal o O.tree.root = none → o ∈ BTree.objs out.btree.root := fun hnone => by
    rw [← show s.objs.tree = O.tree by rw [h.objs]] at hnone
    cases hstep with
    | refused _ hrefusal =>
      rw [hnone] at hrefusal
      cases hrefusal
    | stored _ _ _ hput => exact hput.perm.mem_iff.mpr List.mem_cons_self
    | starved _ hfail =>
      obtain ⟨i, -, hno⟩ := hfail
      exact absurd hno (hgrant _)
    | rootless _ _ _ hfail => exact absurd hfail (hgrant _)
  obtain rfl := hzero.mpr hok
  rw [hout]
  refine wp_bind ((h.askPages hb h12 out.pool.asked 0).mono ?_)
  rintro refused s' ⟨rfl, h'⟩
  rw [hins]
  refine wp_bind (wp_update (wp_pure
    ⟨rfl, out.btree, hform', fun _ => hstored, fun w => ?_, h'.vm, h'.pm, h'.pools, ?_⟩))
  · have hside : Sys.side { s' with objs := { s'.objs with tree := out.btree } } w = s'.side w := by
      cases w <;> rfl
    rw [hside]
    exact h'.inv w
  · show ({ s'.objs with tree := out.btree } : Objects) = _
    rw [h'.objs]

omit hb h12 ho in
theorem Held.kinv (h : Held bits W s₀ O dv dp s) (hform : Formed order false 0 O.tree) :
    KInv bits order s :=
  ⟨h.inv, by rw [h.objs]; exact hform⟩

omit h12 ho hb in
/-- A chunk that was allocated can be freed again. -/
theorem chunk_span {mem size : Nat} (hal : mem % 2 ^ bits = 0) (hfit : mem + size < wordSize)
    (hbits : 2 ≤ 2 ^ bits) (hpos : 0 < size) (hpage : size % 2 ^ bits = 0) (hsize : size < 2 ^ 63) :
    Span bits mem (mem + size - 1) := by
  have hle : 2 ^ bits ≤ size := Nat.le_of_dvd hpos (Nat.dvd_of_mod_eq_zero hpage)
  have hend : mem + size - 1 + 1 = mem + size := by omega
  refine ⟨hal, ?_, by omega, by omega, fun h0 => by omega⟩
  rw [hend, Nat.add_mod, hal, hpage]
  exact Nat.zero_mod _

/-- **`objtable_setup`.** -/
theorem objtableSetup_wp (h : Held bits W s₀ s₀.objs (fun _ => 0) (fun _ => 0) s)
    (hform : Formed order false 0 s₀.objs.tree) (slabs : Slabs) {size flags pagesize : Nat}
    (hflag : has flags memNormal = true) (hpos : 0 < size) (hpage : size % 2 ^ bits = 0)
    (hsize : size < 2 ^ 63) :
    Wp (sysJudge bits) (objtableSetup bits order slabs size flags pagesize) s fun r s' =>
      KInv bits order s' ∧ (r.1 ≠ 0 → Held bits W s₀ s₀.objs (fun _ => 0) (fun _ => 0) s') := by
  refine wp_bind (wp_onlyIf (fun hno => absurd hflag (by rw [hno]; decide)) fun _ => ?_)
  refine wp_bind ((h.allocChunk hb h12 hpage hsize).mono ?_)
  rintro base s₁ (⟨rfl, h₁⟩ | ⟨hal, hfit, h₁⟩)
  · exact wp_ite (fun _ => wp_pure ⟨h₁.kinv hform, fun _ => h₁⟩) fun hno => absurd rfl hno
  refine wp_ite (fun heq => absurd heq (hb.ne_invalidAddr hal)) fun _ => ?_
  have hspan := chunk_span hal hfit hb.two_le hpos hpage hsize
  have hlen : base + size - 1 + 1 - base = size := by omega
  rw [wordAdd_wordSub_one hpos (Nat.le_of_lt hfit)]
  have hlist : Wp (sysJudge bits)
      (if has flags memUser then pure []
        else fpageAllocList (linkedEnv bits .pm) bits base (base + size - 1) pagesize) s₁
      fun l s' => Held bits W s₀ s₀.objs (span base (base + size - 1 + 1 - base)) (coverList l) s' := by
    rw [hlen]
    refine wp_ite (fun _ => wp_pure h₁) fun _ => (h₁.allocList hb h12 _ _ _).mono ?_
    rintro l s' ⟨-, h₂⟩
    exact h₂
  refine wp_bind (hlist.mono ?_)
  intro l s₂ h₂
  refine wp_ite (fun hempty => ?_) fun _ => ?_
  · obtain ⟨-, rfl⟩ := hempty
    refine wp_bind ((h₂.freeChunk hb h12 hspan).mono ?_)
    intro _ s₃ h₃
    exact wp_pure ⟨h₃.kinv hform, fun _ => h₃⟩
  · refine wp_bind ((h₂.insert hb h12 ho hform slabs.pad _).mono ?_)
    rintro r s₃ ⟨rfl, t, ht, -, h₃⟩
    exact wp_ite (fun hne => absurd rfl hne) fun _ => wp_pure ⟨h₃.kinv ht, fun hne => absurd rfl hne⟩

/-- **`objtable_setup_utcb`.** -/
theorem objtableSetupUtcb_wp (h : Held bits W s₀ s₀.objs (fun _ => 0) (fun _ => 0) s)
    (hform : Formed order false 0 s₀.objs.tree) (slabs : Slabs) {size flags : Nat}
    (hflag : has flags memUtcb = true) (hpage : size % 2 ^ bits = 0) (hsize : size < 2 ^ 63) :
    Wp (sysJudge bits) (objtableSetupUtcb bits order slabs size flags) s fun r s' =>
      KInv bits order s' ∧ (r.1 ≠ 0 → Held bits W s₀ s₀.objs (fun _ => 0) (fun _ => 0) s') := by
  refine wp_bind (wp_onlyIf (fun hno => absurd hflag (by rw [hno]; decide)) fun _ => ?_)
  refine wp_bind ((h.allocChunk hb h12 hpage hsize).mono ?_)
  rintro base s₁ (⟨rfl, h₁⟩ | ⟨hal, -, h₁⟩)
  · exact wp_ite (fun _ => wp_pure ⟨h₁.kinv hform, fun _ => h₁⟩) fun hno => absurd rfl hno
  refine wp_ite (fun heq => absurd heq (hb.ne_invalidAddr hal)) fun _ => ?_
  refine wp_bind ((h₁.insert hb h12 ho hform slabs.pad _).mono ?_)
  rintro r s₂ ⟨rfl, t, ht, -, h₂⟩
  exact wp_ite (fun hne => absurd rfl hne) fun _ => wp_pure ⟨h₂.kinv ht, fun hne => absurd rfl hne⟩

/-- **`objtable_setup_internal`.** -/
theorem objtableSetupInternal_wp (h : Held bits W s₀ s₀.objs (fun _ => 0) (fun _ => 0) s)
    (hform : Formed order false 0 s₀.objs.tree) (slabs : Slabs) {size base flags : Nat}
    (hflag : has flags memInternal = true) :
    Wp (sysJudge bits) (objtableSetupInternal bits order slabs size base flags) s fun r s' =>
      KInv bits order s' ∧ r.1 = 0 := by
  refine wp_bind (wp_onlyIf (fun hno => absurd hflag (by rw [hno]; decide)) fun _ => ?_)
  refine wp_bind ((h.insert hb h12 ho hform slabs.pad _).mono ?_)
  rintro r s₁ ⟨rfl, t, ht, -, h₁⟩
  exact wp_pure ⟨h₁.kinv ht, rfl⟩

/-- **`objtable_setup_fixed`.**  When it fails, the memsection stays in the tree, and its whole range
    becomes free, also what of it was not free before. -/
theorem objtableSetupFixed_wp
    (h : Held bits False s₀ s₀.objs (fun _ => 0) (fun _ => 0) s)
    (hform : Formed order false 0 s₀.objs.tree) (slabs : Slabs) {size base flags pagesize : Nat}
    (hflag : has flags memFixed = true) (hpos : 0 < size) (hspan : Span bits base (base + size - 1)) :
    Wp (sysJudge bits) (objtableSetupFixed bits order slabs size base flags pagesize) s fun r s' =>
      KInv bits order s' ∧ (r.1 ≠ 0 → has flags memUser = false ∧
        (∀ x, base ≤ x → x < base + size → 0 < account bits .vm s' x) ∧
        ∃ t, (s₀.objs.initialized = true → refusal r.2 s₀.objs.tree.root = none → r.2 ∈ objs t.root) ∧
          Held bits False s₀ { s₀.objs with tree := t } (fun _ => 0) (fun _ => 0) s') := by
  have hend : base + size ≤ wordSize := by
    have := hspan.fits
    omega
  refine wp_bind (wp_onlyIf (fun hno => absurd hflag (by rw [hno]; decide)) fun _ => ?_)
  rw [wordAdd_wordSub_one hpos hend, wordAdd_sub_one hpos hend]
  refine wp_bind ((h.insert hb h12 ho hform slabs.pad _).mono ?_)
  rintro r s₁ ⟨rfl, t, ht, hstored, h₁⟩
  refine wp_ite (fun hne => absurd rfl hne) fun _ => ?_
  refine wp_bind ((h₁.removeChunk hb h12 ⟨hspan.base_aligned, hspan.end_aligned⟩).mono ?_)
  intro _ s₂ h₂
  refine wp_ite (fun _ => wp_pure ⟨h₂.kinv ht, fun hne => absurd rfl hne⟩) fun huser => ?_
  refine wp_bind ((h₂.allocList hb h12 _ _ _).mono ?_)
  rintro l s₃ ⟨-, h₃⟩
  refine wp_ite (fun hempty => ?_) fun _ => wp_pure ⟨h₃.kinv ht, fun hne => absurd rfl hne⟩
  subst hempty
  refine wp_bind ((fpageFreeChunk_wp hb (linkedContract hb h12 .vm s₃) s₃ (Beside.refl h₃.inv .vm)
    (h₃.inv .vm) hspan).mono ?_)
  rintro _ s₄ ⟨hB, ha, hgained, -⟩
  have h₄ : Held bits False s₀ { s₀.objs with tree := t } (fun _ => 0) (fun _ => 0) s₄ :=
    h₃.on_vm hB ha fun hno => hno.elim
  refine wp_pure ⟨h₄.kinv ht, fun _ => ⟨Bool.eq_false_iff.mpr huser, fun x hlo hhi => ?_, t, hstored, h₄⟩⟩
  have hx : account bits .vm s₄ x = account bits .vm s₃ x + span base (base + size - 1 + 1 - base) x :=
    hgained.2 trivial x
  have hin : span base (base + size - 1 + 1 - base) x = 1 := span_eq_one.mpr (by omega)
  omega

omit hb h12 ho in
theorem Held.weaken {W' : Prop} (h : Held bits W s₀ O dv dp s) (hW : W' → W) :
    Held bits W' s₀ O dv dp s :=
  ⟨h.inv, fun h' => h.vm (hW h'), h.pm, h.pools, h.objs⟩

/-- Whatever the flags: a setup that fails has given everything back, but for a fixed memsection
    that could not be backed. -/
theorem setup_wp {a : Args} (h : Held bits True s₀ s₀.objs (fun _ => 0) (fun _ => 0) s)
    (hform : Formed order false 0 s₀.objs.tree) (ha : a.Proper bits) (slabs : Slabs) :
    Wp (sysJudge bits) (setup bits order a slabs) s fun r s' => KInv bits order s' ∧
      (r.1 ≠ 0 → ∃ t, (¬ a.BacksFixed → t = s₀.objs.tree) ∧
        Held bits (¬ a.BacksFixed) s₀ { s₀.objs with tree := t } (fun _ => 0) (fun _ => 0) s') := by
  have hdone : ∀ s', Held bits True s₀ s₀.objs (fun _ => 0) (fun _ => 0) s' →
      ∃ t, (¬ a.BacksFixed → t = s₀.objs.tree) ∧
        Held bits (¬ a.BacksFixed) s₀ { s₀.objs with tree := t } (fun _ => 0) (fun _ => 0) s' :=
    fun s' h' => ⟨s₀.objs.tree, fun _ => rfl, h'.weaken fun _ => trivial⟩
  refine wp_ite (fun hnormal => ?_) fun hnormal => ?_
  · obtain ⟨hpos, hpage, hsize⟩ := ha.sized (Or.inl hnormal)
    refine (objtableSetup_wp hb h12 ho h hform slabs hnormal hpos hpage hsize).mono ?_
    rintro r s' ⟨hK, hfail⟩
    exact ⟨hK, fun hr => hdone s' (hfail hr)⟩
  have hnormal' := Bool.eq_false_iff.mpr hnormal
  refine wp_ite (fun hfixed => ?_) fun hfixed => ?_
  · obtain ⟨hpos, hspan⟩ := ha.fixed hnormal' hfixed
    refine (objtableSetupFixed_wp hb h12 ho (h.weaken fun hno => hno.elim) hform slabs hfixed hpos
      hspan).mono ?_
    rintro r s' ⟨hK, hfail⟩
    refine ⟨hK, fun hr => ?_⟩
    obtain ⟨huser, -, t, -, h'⟩ := hfail hr
    have hback : a.BacksFixed := ⟨hnormal', hfixed, huser⟩
    exact ⟨t, fun hno => absurd hback hno, h'.weaken fun hno => hno hback⟩
  have hfixed' := Bool.eq_false_iff.mpr hfixed
  refine wp_ite (fun hutcb => ?_) fun _ => wp_ite (fun hinternal => ?_) fun _ => ?_
  · obtain ⟨-, hpage, hsize⟩ := ha.sized (Or.inr ⟨hfixed', hutcb⟩)
    refine (objtableSetupUtcb_wp hb h12 ho h hform slabs hutcb hpage hsize).mono ?_
    rintro r s' ⟨hK, hfail⟩
    exact ⟨hK, fun hr => hdone s' (hfail hr)⟩
  · refine (objtableSetupInternal_wp hb h12 ho h hform slabs hinternal).mono ?_
    rintro r s' ⟨hK, hr⟩
    exact ⟨hK, fun hne => absurd hr hne⟩
  · exact wp_pure ⟨h.kinv hform, fun _ => hdone s h⟩

/-- **`sys$pd_create_memsection`.** -/
theorem pdCreateMemsection_wp {a : Args} (hK : KInv bits order s) (ha : a.Proper bits)
    (slabs : Slabs) :
    Wp (sysJudge bits) (pdCreateMemsection bits order a slabs) s fun r s' =>
      KInv bits order s' ∧ (r = none → Undone bits a s s') := by
  have h₀ : Held bits True s s.objs (fun _ => 0) (fun _ => 0) s := Held.refl hK.inv
  refine wp_bind (wp_read (wp_bind ((h₀.slab hb h12 .ms).mono ?_)))
  rintro node s₁ ⟨rfl, h₁⟩
  refine wp_bind ((setup_wp hb h12 ho h₁ hK.formed ha slabs).mono ?_)
  rintro r s₂ ⟨hK₂, hfail⟩
  refine wp_ite (fun hr => ?_) fun _ => ?_
  · obtain ⟨t, ht, h₂⟩ := hfail hr
    have hcredit := h₂.credit .ms
    refine wp_bind (wp_update (wp_pure ⟨⟨hcredit.inv, hK₂.formed⟩, fun _ => hcredit.undone ht⟩))
  · refine wp_bind (wp_update (wp_pure ⟨⟨fun w => ?_, hK₂.formed⟩, fun hno => by cases hno⟩))
    have := hK₂.inv w
    cases w <;> exact this

end

end

/-! ### Runs -/

/-- A call into the allocators or slab caches, a creation, or `sys$pd_init`, of which only
    `vms$pd_initialized` matters here. -/
inductive KernelCall where
  | sys (c : SysCall)
  | create (a : Args) (slabs : Slabs)
  | pdInit

namespace KernelCall

def exec (bits order : Nat) : KernelCall → Prog Event Sys Fault Unit
  | sys c => do
      let _ ← c.exec bits
      return ()
  | create a slabs => do
      let _ ← pdCreateMemsection bits order a slabs
      return ()
  | pdInit => update fun s => { s with objs := { s.objs with initialized := true } }

def Legal (bits : Nat) (s : Sys) : KernelCall → Prop
  | sys c => c.Legal bits s
  | create a _ => a.Proper bits
  | pdInit => True

/-- Whenever `sys$fpage_clear_internal` asks for a node during the call, something of the range
    is left. -/
def Fed (bits order : Nat) (c : KernelCall) (s : Sys) : Prop :=
  ∀ e ∈ (c.exec bits order s).log, e.Calm

end KernelCall

/-- One call. -/
def kernelStep (bits order : Nat) (c : KernelCall) (s : Sys) : Except Fault Sys :=
  (c.exec bits order s).final

section

variable {bits order : Nat} (hb : PageBits bits) (h12 : 12 ≤ bits) (ho : ValidOrder order)

include hb h12 ho

theorem KInv.exec_wp {c : KernelCall} {s : Sys} (hK : KInv bits order s) (hlegal : c.Legal bits s) :
    Wp (sysJudge bits) (c.exec bits order) s fun _ s' => KInv bits order s' := by
  cases c with
  | sys c =>
    refine wp_bind ((SysCall.exec_wp hb h12 hK.inv hlegal).mono ?_)
    rintro es s' ⟨h1, h2, -⟩
    exact wp_pure ⟨h1, by rw [h2]; exact hK.formed⟩
  | create a slabs =>
    refine wp_bind ((pdCreateMemsection_wp hb h12 ho hK hlegal slabs).mono ?_)
    rintro r s' ⟨h, -⟩
    exact wp_pure h
  | pdInit =>
    refine wp_update ⟨fun w => ?_, hK.formed⟩
    have := hK.inv w
    cases w <;> exact this

/-- **Failed creations.**  In every state that a sequence of calls leads to, a call of
    `sys$pd_create_memsection` that returns `NULL` has undone what it did.  In these runs and in
    this call, no request for a node takes all that is left of the range being cleared. -/
theorem failed_creation_undone (calls : List KernelCall)
    (h : Along (kernelStep bits order) (fun c s => c.Legal bits s ∧ c.Fed bits order s) calls
      Sys.init) :
    Ends (fun e => e = .panic) (fun s => ∀ a : Args, a.Proper bits → ∀ slabs,
      (∀ e ∈ (pdCreateMemsection bits order a slabs s).log, e.Calm) →
      Ends (fun e => e = .panic)
        (fun r => r = none → Undone bits a s (pdCreateMemsection bits order a slabs s).state)
        (pdCreateMemsection bits order a slabs s).result)
      (runs (kernelStep bits order) calls Sys.init) := by
  have hinit : KInv bits order Sys.init := ⟨linked_init.inv, Or.inl rfl⟩
  have hrun : Ends (fun e => e = .panic) (KInv bits order)
      (runs (kernelStep bits order) calls Sys.init) := by
    refine runs_induction (fun c s hK hc => ?_) calls Sys.init hinit h
    refine ((hK.exec_wp hb h12 ho hc.1).final hc.2).mono ?_
    rintro s' ⟨-, hs'⟩
    exact hs'
  refine hrun.mono fun s hK a ha slabs hcalm => ?_
  refine ((pdCreateMemsection_wp hb h12 ho hK ha slabs).ends hcalm).mono ?_
  rintro r ⟨-, hundone⟩
  exact hundone

end

/-- The same addresses are free, and the object table, the lists and the pools are the same. -/
def Unchanged (s s' : Sys) : Prop :=
  (∀ w x, 0 < own (s'.side w) x ↔ 0 < own (s.side w) x) ∧ s'.objs = s.objs ∧ s'.pools = s.pools

/-- `sys$bootstrap` up to `sys$fpage_clear_internal(&vm_alloc)`, then as many memsections of the
    kernel as `ms_cache` has slabs. -/
def crowded : List KernelCall :=
  (boot 256).map .sys ++ .sys (.on .vm .clearInternal) :: (List.range 40).map fun i =>
    .create ⟨0, 0x1000, 0x2000000 + i * 0x1000, memInternal, 0x1000⟩ ⟨i, fun _ => 0⟩

instance (c : KernelCall) (s : Sys) : Decidable (c.Fed 12 255 s) :=
  inferInstanceAs (Decidable (∀ e ∈ (c.exec 12 255 s).log, e.Calm))

theorem crowded_legal :
    Along (kernelStep 12 255) (fun c s => c.Legal 12 s ∧ c.Fed 12 255 s) crowded Sys.init := by
  refine Along.and ?_ (by decide +kernel)
  have hvm : kernelStep 12 255 (.sys (.on .vm (.freeInternal 0x40000000 0x40ffffff))) Sys.init =
      .ok bootVm := rfl
  refine .cons hvm ?_ ⟨?_, fun s _ => Along.of_forall (fun c hc s => ?_) s⟩
  · exact ⟨⟨⟨by decide, by decide⟩, by decide, by decide, fun x _ _ => own_empty x⟩,
      ⟨by decide, fun h => absurd h (by decide)⟩, fun _ _ => rfl⟩
  · exact ⟨⟨⟨by decide, by decide⟩, by decide, by decide, fun x _ _ => own_empty x⟩,
      ⟨by decide, fun h => absurd h (by decide)⟩, fun _ _ => rfl⟩
  · rcases List.mem_cons.mp hc with rfl | hc
    · exact ⟨trivial, trivial, fun x hx => absurd hx (Nat.lt_irrefl 0)⟩
    · obtain ⟨i, -, rfl⟩ := List.mem_map.mp hc
      have hflags : has memInternal memNormal = false ∧ has memInternal memFixed = false ∧
          has memInternal memUtcb = false := by decide
      refine ⟨fun h => ?_, fun _ h => ?_⟩
      · rcases h with h | ⟨-, h⟩
        · rw [hflags.1] at h
          cases h
        · rw [hflags.2.2] at h
          cases h
      · rw [hflags.2.1] at h
        cases h

theorem crowded_undone :
    Along (kernelStep 12 255) (fun c s => c.Legal 12 s ∧ c.Fed 12 255 s) crowded Sys.init ∧
    Ends (fun e => e = .panic) (fun s => ∀ a : Args, a.Proper 12 → ∀ slabs,
      (∀ e ∈ (pdCreateMemsection 12 255 a slabs s).log, e.Calm) →
      Ends (fun e => e = .panic)
        (fun r => r = none → Undone 12 a s (pdCreateMemsection 12 255 a slabs s).state)
        (pdCreateMemsection 12 255 a slabs s).result)
      (runs (kernelStep 12 255) crowded Sys.init) :=
  ⟨crowded_legal, failed_creation_undone ⟨by decide, by decide⟩ (by decide) deployed_order _ crowded_legal⟩

/-- The state after these calls. -/
def crowdedSys : Sys :=
  match runs (kernelStep 12 255) crowded Sys.init with
  | .ok s => s
  | .error _ => Sys.init

theorem crowded_run : runs (kernelStep 12 255) crowded Sys.init = .ok crowdedSys := by
  have hok : fault (runs (kernelStep 12 255) crowded Sys.init) = none := by decide +kernel
  rw [crowdedSys]
  cases hr : runs (kernelStep 12 255) crowded Sys.init with
  | ok s => rfl
  | error e =>
    rw [hr] at hok
    cases hok

/-- 32 megabytes, which is more than there is. -/
def hugeArgs : Args := ⟨0, 0x2000000, 0, memUtcb, 0x1000⟩

theorem hugeArgs_proper : hugeArgs.Proper 12 :=
  ⟨fun _ => by decide, fun _ h => absurd h (by decide)⟩

/-- The request of 32 megabytes of virtual memory fails, and `ms_cache` has a new pool: a page
    that was free before is not free afterwards. -/
theorem pool_outlives_failure :
    ¬ ∀ calls, Along (kernelStep 12 255) (fun c s => c.Legal 12 s ∧ c.Fed 12 255 s) calls Sys.init →
      Ends (fun e => e = .panic) (fun s => ∀ a : Args, a.Proper 12 → ∀ slabs,
        (∀ e ∈ (pdCreateMemsection 12 255 a slabs s).log, e.Calm) →
        Ends (fun e => e = .panic)
          (fun r => r = none → Unchanged s (pdCreateMemsection 12 255 a slabs s).state)
          (pdCreateMemsection 12 255 a slabs s).result)
        (runs (kernelStep 12 255) calls Sys.init) := by
  intro h
  obtain ⟨s, hrun, hcalm, hnull, hbefore, hafter⟩ :
      ∃ s, runs (kernelStep 12 255) crowded Sys.init = .ok s ∧
        (∀ e ∈ (pdCreateMemsection 12 255 hugeArgs ⟨0, fun _ => 0⟩ s).log, e.Calm) ∧
        (pdCreateMemsection 12 255 hugeArgs ⟨0, fun _ => 0⟩ s).result = .ok none ∧
        0 < own (s.side .vm) 0x40002000 ∧
        own ((pdCreateMemsection 12 255 hugeArgs ⟨0, fun _ => 0⟩ s).state.side .vm) 0x40002000 = 0 :=
    ⟨crowdedSys, crowded_run, by decide +kernel, by decide +kernel, by decide +kernel,
      by decide +kernel⟩
  have hend := h crowded crowded_legal
  rw [hrun] at hend
  cases hend with
  | ok hall =>
    have hcreate := hall hugeArgs hugeArgs_proper ⟨0, fun _ => 0⟩ hcalm
    rw [hnull] at hcreate
    cases hcreate with
    | ok hsame =>
      have hfree := ((hsame rfl).1 .vm 0x40002000).mpr hbefore
      rw [hafter] at hfree
      exact absurd hfree (by decide)

end FreeVMS.Kernel.Sections
