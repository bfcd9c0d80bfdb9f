import FreeVMS.Kernel.SlabSpec
import FreeVMS.Alloc.Ledger

/-!
# Re-entrancy

The two allocators linked with the slab caches that take their pages from them.  While a
request for a node leaves something of the range that `sys$fpage_clear_internal` is working
on, the allocators keep their contract: what is filed lies in the range being cleared, and no
page is free and part of a pool.
-/

namespace FreeVMS.Kernel

open Trace Cover Run Alloc

section

variable {bits : Nat}

/-- What calls on side `w` leave alone: the other side's account and the object table.  Pools are
    only added. -/
structure Beside (bits : Nat) (w : Side) (s₀ s : Sys) : Prop where
  ainv : AInv bits (s.side w.other)
  account : account bits w.other s = account bits w.other s₀
  objs : s.objs = s₀.objs
  pools : ∃ t, s.pools = s₀.pools ++ t

theorem Beside.refl {s : Sys} (h : SInv bits s) (w : Side) : Beside bits w s s :=
  ⟨h w.other, rfl, rfl, [], (List.append_nil _).symm⟩

theorem Beside.setSide {w : Side} {s₀ s : Sys} (h : Beside bits w s₀ s) (a : FpageAlloc) :
    Beside bits w s₀ (s.setSide w a) := by
  refine ⟨by rw [Sys.side_setSide_other]; exact h.ainv, ?_, (s.setSide_objs w a).trans h.objs, ?_⟩
  · rw [← h.account]
    funext x
    simp only [Kernel.account, Sys.side_setSide_other, Sys.setSide_pools]
  · rw [Sys.setSide_pools]
    exact h.pools

theorem Beside.sinv {w : Side} {s₀ s : Sys} (h : Beside bits w s₀ s) (ha : AInv bits (s.side w)) :
    SInv bits s :=
  (forall_side w).mpr ⟨ha, h.ainv⟩

theorem Beside.drawn {w : Side} {s₀ s s' : Sys} {n : Nat} (h : Beside bits w s₀ s)
    (hd : Drawn bits n s s') : Beside bits w s₀ s' := by
  obtain ⟨t, ht⟩ := h.pools
  obtain ⟨t', ht'⟩ := hd.pools
  exact ⟨hd.inv w.other, (hd.account w.other).trans h.account, hd.objs.trans h.objs,
    t ++ t', by rw [ht', ht, List.append_assoc]⟩

theorem acct_setSide (w : Side) (a : FpageAlloc) (s : Sys) (x : Nat) :
    account bits w (s.setSide w a) x + own (s.side w) x = account bits w s x + own a x := by
  show own ((s.setSide w a).side w) x + poolCover bits w (s.setSide w a).pools x +
    own (s.side w) x = own (s.side w) x + poolCover bits w s.pools x + own a x
  rw [Sys.side_setSide, Sys.setSide_pools]
  omega

section Linked

variable {w : Side} {s₀ : Sys}

theorem linked_slabFree (s : Sys) (h : Beside bits w s₀ s) :
    Wp (sysJudge bits) (linkedEnv bits w).slabFree s fun _ s' =>
      Beside bits w s₀ s' ∧ (linkedEnv bits w).get s' = (linkedEnv bits w).get s ∧
        account bits w s' = account bits w s := by
  refine wp_update ⟨⟨?_, ?_, h.objs, h.pools⟩, s.side_credit .fp w, ?_⟩
  · rw [Sys.side_credit]
    exact h.ainv
  · rw [← h.account]
    funext x
    simp only [Kernel.account, Sys.side_credit]
    rfl
  · funext x
    simp only [Kernel.account, Sys.side_credit]
    rfl

theorem linked_slabAlloc (hb : PageBits bits) (h12 : 12 ≤ bits) (s : Sys)
    (h : Beside bits w s₀ s) (ha : AInv bits ((linkedEnv bits w).get s)) :
    Wp (sysJudge bits) (linkedEnv bits w).slabAlloc s fun r s' =>
      (True → r = true) ∧ Beside bits w s₀ s' ∧ AInv bits ((linkedEnv bits w).get s') ∧
        account bits w s' = account bits w s ∧
        listBytes ((linkedEnv bits w).get s') ≤ listBytes ((linkedEnv bits w).get s) := by
  refine (slabCacheAlloc_wp hb h12 1 .fp s (h.sinv ha)).mono ?_
  rintro r s' ⟨rfl, hd⟩
  exact ⟨fun _ => rfl, h.drawn hd, hd.inv w, hd.account w, hd.bytes w⟩

theorem linked_clearing (hb : PageBits bits) (h12 : 12 ≤ bits) (s : Sys)
    (h : Beside bits w s₀ s) (ha : AInv bits ((linkedEnv bits w).get s))
    (hact : ((linkedEnv bits w).get s).active = true) :
    Wp (sysJudge bits) (linkedEnv bits w).clearing s fun _ s₁ =>
      Wp (sysJudge bits) (linkedEnv bits w).slabAlloc s₁ fun r s' =>
        (True → r = true) ∧ Beside bits w s₀ s' ∧ account bits w s' = account bits w s ∧
          ∃ b, ((linkedEnv bits w).get s).base ≤ b ∧ b % 2 ^ bits = 0 ∧
            b < ((linkedEnv bits w).get s).end_ ∧
            (linkedEnv bits w).get s' = { (linkedEnv bits w).get s with base := b } := by
  refine wp_bind (wp_read (wp_onlyIf (fun _ => wp_emit fun hno => hno.elim) fun hleft => ?_))
  refine (slabCacheAlloc_wp hb h12 1 .fp s (h.sinv ha)).mono ?_
  rintro r s' ⟨rfl, hd⟩
  -- the pages of the request come off the range that is being cleared
  have hspan : Span bits (s.side w).base (s.side w).end_ := ha.range hact
  have hal : ((s.side w).base + s.need .fp * 2 ^ bits) % 2 ^ bits = 0 := by
    rw [Nat.add_mul_mod_self_right]
    exact hspan.base_aligned
  have hgap := aligned_gap hal hspan.end_aligned (by omega)
  have hpage := hb.two_le
  refine ⟨fun _ => rfl, h.drawn hd, hd.account w, (s.side w).base + s.need .fp * 2 ^ bits,
    Nat.le_add_right _ _, hal, ?_, hd.exact_ w hact (by omega)⟩
  show _ < (s.side w).end_
  omega

theorem linked_filed (s : Sys) (lo hi : Nat) (f : Fpage) (i b : Nat) (h : Beside bits w s₀ s)
    (hf : Block bits i f b) (hlo : lo ≤ b) (hhi : b + 2 ^ (i + bits) ≤ hi + 1) :
    Wp (sysJudge bits) ((linkedEnv bits w).filed lo hi f) s fun _ s' =>
      Beside bits w s₀ s' ∧ (linkedEnv bits w).get s' = (linkedEnv bits w).get s ∧
        account bits w s' = account bits w s := by
  have hi64 : i ≤ maxFpageOrder := by
    have := hf.index_lt
    omega
  exact wp_emit fun _ => ⟨⟨i, b, hf, hi64, hlo, hhi⟩, h, rfl, rfl⟩

end Linked

/-- The linked allocators keep the contract, and no request is turned down. -/
def linkedContract (hb : PageBits bits) (h12 : 12 ≤ bits) (w : Side) (s₀ : Sys) :
    Contract bits (linkedEnv bits w) (sysJudge bits) where
  Inv s := Beside bits w s₀ s
  acct s := account bits w s
  panic := rfl
  get_set a s := s.side_setSide w a
  inv_set a _ h := h.setSide a
  acct_set a s x := acct_setSide w a s x
  slabFree := linked_slabFree
  reliable := True
  slabAlloc := linked_slabAlloc hb h12
  clearing := linked_clearing hb h12
  filed := linked_filed

end

/-! ### Runs -/

/-- A call of one of the allocators' functions, or a request to one of the slab caches. -/
inductive SysCall where
  | on (w : Side) (op : Op)
  | slabAlloc (c : Cache)
  | slabFree (c : Cache)

instance : DecidablePred Event.Calm
  | .starved _ => isFalse id
  | .filed _ _ _ _ => isTrue trivial

namespace SysCall

/-- Run the call; the result is the memory it hands out. -/
def exec (bits : Nat) : SysCall → Prog Event Sys Fault (List (Nat × Nat))
  | on w op => op.exec (linkedEnv bits w) bits
  | slabAlloc c => do
      let _ ← slabCacheAlloc bits reentryDepth c
      return []
  | slabFree c => do
      update fun s => s.credit c
      return []

/-- The memory that the call gives to an allocator. -/
def freed (w : Side) : SysCall → Nat → Nat
  | on v op => if v = w then op.freed else fun _ => 0
  | _ => fun _ => 0

/-- What the callers see to: the arguments are of whole pages, and what is freed is neither free
    already nor part of a pool. -/
def Legal (bits : Nat) (s : Sys) : SysCall → Prop
  | on w op => op.Legal bits (s.side w) ∧ op.Fits ∧
      ∀ x, 0 < op.freed x → poolCover bits w s.pools x = 0
  | _ => True

/-- Whenever `sys$fpage_clear_internal` asks for a node during the call, something of the range
    is left. -/
def Fed (bits : Nat) (c : SysCall) (s : Sys) : Prop := ∀ e ∈ (c.exec bits s).log, e.Calm

/-- The flexpages that the call files. -/
def FilesWell (bits : Nat) (c : SysCall) (s : Sys) : Prop := ∀ e ∈ (c.exec bits s).log, e.Fine bits

end SysCall

/-- One call. -/
def sysStep (bits : Nat) (c : SysCall) (s : Sys) : Except Fault Sys := (c.exec bits s).final

/-- `sys$bootstrap` begins with empty allocators, caches without pools and an empty object
    table. -/
def Sys.init : Sys where
  vm := ⟨fun _ => [], 0, 0, false⟩
  pm := ⟨fun _ => [], 0, 0, false⟩
  free _ := 0
  pools := []
  objs := ⟨BTree.emptyTree, false, []⟩

/-- The allocators are in order, and no page is free twice, or free and part of a pool. -/
structure Linked (bits : Nat) (s : Sys) : Prop where
  inv : SInv bits s
  once : ∀ w x, account bits w s x ≤ 1

section

variable {bits : Nat} (hb : PageBits bits) (h12 : 12 ≤ bits)

theorem linked_init : Linked bits Sys.init := by
  have hempty : ∀ w, Sys.init.side w = Ledger.empty.alloc := by
    intro w
    cases w <;> rfl
  refine ⟨fun w => ?_, fun w x => ?_⟩
  · rw [hempty]
    exact ainv_empty bits
  · rw [account, hempty, own_empty]
    exact Nat.zero_le _

include hb h12

/-- **One call of the linked system.**  The allocators stay in order, the object table is left
    alone, and nothing comes into an account but what the call frees. -/
theorem SysCall.exec_wp {c : SysCall} {s : Sys} (hs : SInv bits s) (hlegal : c.Legal bits s) :
    Wp (sysJudge bits) (c.exec bits) s fun _ s' => SInv bits s' ∧ s'.objs = s.objs ∧
      ∀ w x, account bits w s' x ≤ account bits w s x + c.freed w x := by
  cases c with
  | on w op =>
    have hwp := Op.exec_wp hb (linkedContract hb h12 w s) op (hlegal.1.proper hb hlegal.2.1)
      (fun _ => trivial) s (Beside.refl hs w) (hs w)
    refine hwp.mono ?_
    rintro es s' ⟨h1, h2, h3⟩
    refine ⟨h1.sinv h2, h1.objs, (forall_side w).mpr ⟨fun x => ?_, fun x => ?_⟩⟩
    · have hle : account bits w s' x + covers es x ≤ account bits w s x + op.freed x := h3.le x
      simp only [SysCall.freed, if_true]
      omega
    · rw [h1.account]
      exact Nat.le_add_right _ _
  | slabAlloc c =>
    refine wp_bind ((slabCacheAlloc_wp hb h12 1 c s hs).mono ?_)
    rintro r s' ⟨-, h⟩
    refine wp_pure ⟨h.inv, h.objs, fun w x => ?_⟩
    rw [h.account]
    exact Nat.le_add_right _ _
  | slabFree c =>
    refine wp_bind (wp_update (wp_pure ⟨fun w => ?_, rfl, fun w x => ?_⟩))
    · rw [Sys.side_credit]
      exact hs w
    · simp only [account, Sys.side_credit]
      exact Nat.le_add_right _ _

omit hb h12 in
/-- What is freed comes on top of nothing. -/
theorem SysCall.Legal.apart {c : SysCall} {s : Sys} (hlegal : c.Legal bits s)
    (honce : ∀ w x, account bits w s x ≤ 1) (w : Side) (x : Nat) :
    account bits w s x + c.freed w x ≤ 1 := by
  cases c with
  | on v op =>
    by_cases hv : v = w
    · subst hv
      simp only [SysCall.freed, if_true]
      have hown := hlegal.1.apart (fun y => Nat.le_trans (Nat.le_add_right _ _) (honce v y)) x
      have hx := honce v x
      by_cases hf : 0 < op.freed x
      · simp only [account, hlegal.2.2 x hf]
        omega
      · omega
    · simp only [SysCall.freed, if_neg hv]
      exact honce w x
  | slabAlloc c => exact honce w x
  | slabFree c => exact honce w x

theorem Linked.exec_wp {c : SysCall} {s : Sys} (hL : Linked bits s) (hlegal : c.Legal bits s) :
    Wp (sysJudge bits) (c.exec bits) s fun _ s' => Linked bits s' := by
  refine (SysCall.exec_wp hb h12 hL.inv hlegal).mono ?_
  rintro es s' ⟨h1, -, h3⟩
  exact ⟨h1, fun w x => Nat.le_trans (h3 w x) (hlegal.apart hL.once w x)⟩

/-- **Re-entrancy.**  In every sequence of calls in which no request for a node takes all that is
    left of the range being cleared, flexpages are filed well, and no page is free and part of
    a pool. -/
theorem runs_filesWell (calls : List SysCall)
    (h : Along (sysStep bits) (fun c s => c.Legal bits s ∧ c.Fed bits s) calls Sys.init) :
    Ends (fun e => e = .panic) (fun s =>
      (∀ w x, own (s.side w) x + poolCover bits w s.pools x ≤ 1) ∧
      ∀ c : SysCall, c.Legal bits s → c.Fed bits s → c.FilesWell bits s)
      (runs (sysStep bits) calls Sys.init) := by
  have hlinked : Ends (fun e => e = .panic) (Linked bits) (runs (sysStep bits) calls Sys.init) := by
    refine runs_induction (fun c s hL hc => ?_) calls Sys.init linked_init h
    refine ((hL.exec_wp hb h12 hc.1).final hc.2).mono ?_
    rintro s' ⟨-, hs'⟩
    exact hs'
  refine hlinked.mono fun s hL => ⟨hL.once, fun c hlegal hfed => ?_⟩
  exact (hL.exec_wp hb h12 hlegal hfed).1

end

/-- The beginning of `sys$bootstrap`: virtual memory for the slab caches, then physical memory of
    `n` pages. -/
def boot (n : Nat) : List SysCall :=
  [.on .vm (.freeInternal 0x40000000 0x40ffffff), .on .pm (.freeChunk 0x100000 (0xfffff + n * 0x1000))]

/-- The state after the first of these calls. -/
def bootVm : Sys := Sys.init.setSide .vm ⟨fun _ => [], 0x40000000, 0x40ffffff, true⟩

theorem boot_legal {n : Nat} (hn : 0 < n) (hn' : n < 2 ^ 40) {P : SysCall → Sys → Prop}
    (h₁ : P (.on .vm (.freeInternal 0x40000000 0x40ffffff)) Sys.init)
    (h₂ : P (.on .pm (.freeChunk 0x100000 (0xfffff + n * 0x1000))) bootVm) :
    Along (sysStep 12) (fun c s => c.Legal 12 s ∧ P c s) (boot n) Sys.init := by
  refine ⟨⟨⟨⟨⟨by decide, by decide⟩, by decide, by decide, fun x _ _ => own_empty x⟩,
    ⟨by decide, fun h => absurd h (by decide)⟩, fun _ _ => rfl⟩, h₁⟩, fun s hs => ?_⟩
  obtain rfl : bootVm = s := Except.ok.inj hs
  refine ⟨⟨⟨⟨⟨by decide, by omega⟩, by omega, by simp only [wordSize]; omega, fun x _ _ => own_empty x⟩,
    ⟨by simp only [wordSize]; omega, fun h => absurd h (by decide)⟩, fun _ _ => rfl⟩, h₂⟩,
    fun _ _ => trivial⟩

theorem boot_filesWell : fault (runs (sysStep 12) (boot 256) Sys.init) = none ∧
    Ends (fun e => e = .panic) (fun s =>
      (∀ w x, own (s.side w) x + poolCover 12 w s.pools x ≤ 1) ∧
      ∀ c : SysCall, c.Legal 12 s → c.Fed 12 s → c.FilesWell 12 s)
      (runs (sysStep 12) (boot 256) Sys.init) := by
  have hbits : PageBits 12 := ⟨by decide, by decide⟩
  constructor
  · decide +kernel
  · refine runs_filesWell hbits (by decide) (boot 256) (boot_legal (by decide) (by decide) ?_ ?_)
    · exact fun e he => absurd he List.not_mem_nil
    · show ∀ e ∈ _, Event.Calm e
      decide +kernel

/-- Two pages of physical memory, which `sys$bootstrap` takes to be enough: the first request for
    a node makes both of them pools, and what is filed is the nil page. -/
theorem two_pages_starve :
    ¬ ∀ calls, Along (sysStep 12) (fun c s => c.Legal 12 s) calls Sys.init →
      Ends (fun e => e = .panic) (fun s =>
        (∀ w x, own (s.side w) x + poolCover 12 w s.pools x ≤ 1) ∧
        ∀ c : SysCall, c.Legal 12 s → c.FilesWell 12 s)
        (runs (sysStep 12) calls Sys.init) := by
  intro h
  refine not_ends_of_fault (e := Fault.outOfBounds) ?_ (by decide)
    (h (boot 2) ((boot_legal (P := fun _ _ => True) (by decide) (by decide) trivial trivial).mono fun _ _ hc => hc.1))
  decide +kernel

end FreeVMS.Kernel
