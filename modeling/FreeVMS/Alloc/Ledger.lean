import FreeVMS.Alloc.TakeSpec
import FreeVMS.Alloc.Remove
import FreeVMS.Lib.Run
import Mathlib.Data.Set.Defs

/-!
# Who has the memory

Sequences of calls of the allocator's functions.  A ledger keeps the allocator together with
the memory that was ever given to it and the memory that is handed out at the moment.  Nodes
come from outside; each call says which of its requests for a node are granted.
-/

namespace FreeVMS.Alloc

open Trace Cover Run

/-- A call of one of the functions. -/
inductive Op where
  | freeChunk (base end_ : Nat)
  | freeInternal (base end_ : Nat)
  | allocChunk (size : Nat)
  | allocList (base end_ pagesize : Nat)
  | freeList (list : List Fpage)
  | allocInternal
  | clearInternal
  | removeChunk (base end_ : Nat)

/-- The addresses `[e.1, e.1 + e.2)` of the extents. -/
def covers (es : List (Nat × Nat)) (x : Nat) : Nat := weight (fun e => span e.1 e.2 x) es

namespace Op

section

variable {ε σ : Type} (E : Env ε σ) (bits : Nat)

/-- Run the call; the result is the memory that it hands out. -/
def exec : Op → Prog ε σ Fault (List (Nat × Nat))
  | freeChunk base end_ => do
      fpageFreeChunk E bits base end_
      return []
  | freeInternal base end_ => do
      fpageFreeInternal E bits base end_
      return []
  | allocChunk size => do
      let mem ← fpageAllocChunk E bits size
      return if mem = invalidAddr then [] else [(mem, size)]
  | allocList base end_ pagesize => do
      let list ← fpageAllocList E bits base end_ pagesize
      return list.map fun f => (l4Address f, l4Size f)
  | freeList list => do
      fpageFreeList E bits list
      return []
  | allocInternal => do
      let mem ← fpageAllocInternal E (2 ^ bits)
      return if mem = invalidAddr then [] else [(mem, 2 ^ bits)]
  | clearInternal => do
      fpageClearInternal E bits
      return []
  | removeChunk base end_ => do
      fpageRemoveChunk E bits base end_
      return []

end

/-- The memory that the call gives to the allocator. -/
def freed : Op → Nat → Nat
  | freeChunk base end_ | freeInternal base end_ => span base (end_ + 1 - base)
  | freeList list => coverList list
  | _ => fun _ => 0

/-- The call takes memory out of the free lists. -/
def takes : Op → Bool
  | allocChunk _ => true
  | allocList _ _ _ => true
  | _ => false

/-- The call removes memory without handing it out. -/
def removes : Op → Bool
  | removeChunk _ _ => true
  | _ => false

/-- What the callers see to: ranges, sizes and flexpages are of whole pages, and what is freed
    is not free already. -/
def Legal (bits : Nat) (a : FpageAlloc) : Op → Prop
  | freeChunk base end_ | freeInternal base end_ => Paged bits base end_ ∧ base < end_ ∧ end_ < wordSize ∧
      ∀ x, base ≤ x → x ≤ end_ → own a x = 0
  | allocChunk size => size % 2 ^ bits = 0 ∧ size < wordSize
  | freeList list => (∀ f ∈ list, ∃ i b, f = l4FpageLog2 b (i + bits) ∧ i + bits < 64 ∧
      b % 2 ^ (i + bits) = 0) ∧ ∀ x, own a x + coverList list x ≤ 1
  | removeChunk base end_ => Paged bits base end_
  | _ => True

/-- `sys$fpage_clear_internal` and `sz_order` can deal with the arguments: what is freed ends
    below the last word of the address space and does not begin at 0 and cover half of it, a
    size is not above half of it. -/
def Fits : Op → Prop
  | freeChunk base end_ | freeInternal base end_ =>
      end_ + 1 < wordSize ∧ (base = 0 → end_ + 1 < 2 ^ 63)
  | allocChunk size => size ≤ 2 ^ 63
  | freeList list => ∀ f ∈ list, l4Address f + l4Size f < wordSize ∧ l4SizeLog2 f < 63
  | _ => True

/-- What the specifications of the functions ask of the arguments. -/
def Proper (bits : Nat) : Op → Prop
  | freeChunk base end_ | freeInternal base end_ => Span bits base end_
  | allocChunk size => size % 2 ^ bits = 0 ∧ size ≤ 2 ^ 63
  | freeList list => Blocks bits list
  | removeChunk base end_ => Paged bits base end_
  | _ => True

end Op

theorem covers_map (l : List Fpage) (x : Nat) :
    covers (l.map fun f => (l4Address f, l4Size f)) x = coverList l x := by
  rw [covers, coverList, weight, weight, List.map_map]
  rfl

theorem covers_single (mem size x : Nat) : covers [(mem, size)] x = span mem size x := by
  rw [covers, weight_cons, weight_nil, Nat.add_zero]

section

variable {ε σ : Type} {E : Env ε σ} {J : Judge ε Fault} {bits : Nat}

/-- Memory `d` was given to the account and `es` taken out of it. -/
structure Settled (C : Contract bits E J) (exact_ : Prop) (s s' : σ) (es : List (Nat × Nat))
    (d : Nat → Nat) : Prop where
  le : ∀ x, C.acct s' x + covers es x ≤ C.acct s x + d x
  eq : exact_ → ∀ x, C.acct s' x + covers es x = C.acct s x + d x

/-- **One call.**  Functions that take memory out of the lists are asked to have their nodes. -/
theorem Op.exec_wp (hb : PageBits bits) (C : Contract bits E J) (op : Op) (hop : op.Proper bits)
    (htakes : op.takes = true → C.reliable) (s : σ) (hinv : C.Inv s) (ha : AInv bits (E.get s)) :
    Wp J (op.exec E bits) s fun es s' => C.Inv s' ∧ AInv bits (E.get s') ∧
      Settled C (C.reliable ∧ op.removes = false) s s' es op.freed := by
  cases op with
  | freeChunk base end_ =>
    refine wp_bind ((fpageFreeChunk_wp hb C s hinv ha hop).mono ?_)
    rintro _ s' ⟨h1, h2, h3, -⟩
    exact wp_pure ⟨h1, h2, h3.1, fun hr => h3.2 hr.1⟩
  | freeInternal base end_ =>
    refine wp_bind ((fpageFreeInternal_wp hb C s hinv ha hop).mono ?_)
    rintro _ s' ⟨h1, h2, h3, -⟩
    exact wp_pure ⟨h1, h2, h3.1, fun hr => h3.2 hr.1⟩
  | allocChunk size =>
    refine wp_bind ((fpageAllocChunk_wp hb C (htakes rfl) s hinv ha hop.1 hop.2).mono ?_)
    rintro mem s' ⟨h1, h2, ⟨rfl, h3, -⟩ | ⟨h3, -, h4, -⟩⟩
    · rw [if_pos rfl]
      exact wp_pure ⟨h1, h2, fun x => Nat.le_of_eq (by rw [h3]; rfl), fun _ x => by rw [h3]; rfl⟩
    · rw [if_neg (hb.ne_invalidAddr h3)]
      exact wp_pure ⟨h1, h2, fun x => Nat.le_of_eq (by rw [covers_single]; exact h4 x),
        fun _ x => by rw [covers_single]; exact h4 x⟩
  | allocList base end_ pagesize =>
    refine wp_bind ((fpageAllocList_wp hb C (htakes rfl) s hinv ha base end_ pagesize).mono ?_)
    rintro l s' ⟨h1, h2, h3, h4, -⟩
    exact wp_pure ⟨h1, h2, fun x => Nat.le_of_eq (by rw [covers_map]; exact h4 x),
      fun _ x => by rw [covers_map]; exact h4 x⟩
  | freeList list =>
    refine wp_bind ((freeNodes_wp hb C list s hop hinv ha).mono ?_)
    rintro _ s' ⟨h1, h2, h3⟩
    exact wp_pure ⟨h1, h2, h3.1, fun hr => h3.2 hr.1⟩
  | allocInternal =>
    refine wp_bind ((fpageAllocInternal_wp hb C.toBase s hinv ha).mono ?_)
    rintro mem s' ⟨h1, h2, h3, h4, -⟩
    rw [if_neg (hb.ne_invalidAddr h3.base_aligned)]
    exact wp_pure ⟨h1, h2, fun x => Nat.le_of_eq (by rw [covers_single]; exact h4 x),
      fun _ x => by rw [covers_single]; exact h4 x⟩
  | clearInternal =>
    refine wp_bind ((fpageClearInternal_wp hb C s hinv ha).mono ?_)
    rintro _ s' ⟨h1, h2, h3, -⟩
    exact wp_pure ⟨h1, h2, fun x => Nat.le_of_eq (by rw [h3]; rfl), fun _ x => by rw [h3]; rfl⟩
  | removeChunk base end_ =>
    refine wp_bind ((fpageRemoveChunk_wp hb C hop s hinv ha).mono ?_)
    rintro _ s' ⟨h1, h2, h3, -⟩
    exact wp_pure ⟨h1, h2, h3.1, fun hr => absurd hr.2 (by simp [Op.removes])⟩

end

theorem Op.Legal.proper {bits : Nat} (hb : PageBits bits) {a : FpageAlloc} {op : Op}
    (h : op.Legal bits a) (hfits : op.Fits) : op.Proper bits := by
  cases op with
  | freeChunk base end_ | freeInternal base end_ =>
    exact ⟨h.1.base_aligned, h.1.end_aligned, h.2.1, hfits.1, hfits.2⟩
  | allocChunk size => exact ⟨h.1, hfits⟩
  | freeList list =>
    intro f hf
    obtain ⟨i, b, rfl, hlt, hal⟩ := h.1 f hf
    obtain ⟨hend, hsmall⟩ := hfits _ hf
    have hge := hb.ge
    rw [l4SizeLog2_fpageLog2 (by omega) hlt hal] at hsmall
    rw [l4Size, l4SizeLog2_fpageLog2 (by omega) hlt hal, if_neg (by omega),
      l4Address_fpageLog2 (by omega) hlt hal] at hend
    exact ⟨i, b, rfl, hsmall, hal, hend⟩
  | removeChunk base end_ => exact h
  | allocList _ _ _ => trivial
  | allocInternal => trivial
  | clearInternal => trivial

theorem Op.Legal.apart {bits : Nat} {a : FpageAlloc} {op : Op} (h : op.Legal bits a)
    (hown : ∀ x, own a x ≤ 1) (x : Nat) : own a x + op.freed x ≤ 1 := by
  cases op with
  | freeChunk base end_ | freeInternal base end_ =>
    have hle := span_le_one base (end_ + 1 - base) x
    by_cases hx : base ≤ x ∧ x ≤ end_
    · rw [h.2.2.2 x hx.1 hx.2]
      exact (Nat.zero_add _).le.trans hle
    · have hz : span base (end_ + 1 - base) x = 0 := span_eq_zero.mpr (by omega)
      show own a x + span base (end_ + 1 - base) x ≤ 1
      rw [hz]
      exact hown x
  | freeList list => exact h.2 x
  | allocChunk _ => exact hown x
  | allocList _ _ _ => exact hown x
  | allocInternal => exact hown x
  | clearInternal => exact hown x
  | removeChunk _ _ => exact hown x

/-! ### Nodes from outside -/

/-- An allocator and the answers to its next requests for a node. -/
structure Cell where
  alloc : FpageAlloc
  answers : Nat → Bool

/-- Nodes come from outside: a request does nothing to the allocator. -/
def quietEnv : Env Empty Cell where
  get c := c.alloc
  set a c := { c with alloc := a }
  slabAlloc := do
    let c ← read
    update fun c => { c with answers := fun k => c.answers (k + 1) }
    return c.answers 0
  slabFree := return ()
  clearing := return ()
  filed _ _ _ := return ()

/-- The only fault is a panic. -/
def quietJudge : Judge Empty Fault where
  calm _ := True
  fine _ := True
  allowed e := e = .panic

/-- The environment keeps its contract; it is reliable if every answer is yes. -/
def quietContract (bits : Nat) (served : Prop) : Contract bits quietEnv quietJudge where
  Inv c := served → ∀ k, c.answers k = true
  acct c := own c.alloc
  panic := rfl
  get_set _ _ := rfl
  inv_set _ _ h := h
  acct_set _ _ _ := Nat.add_comm _ _
  slabFree _ h := wp_pure ⟨h, rfl, rfl⟩
  reliable := served
  slabAlloc _ h ha := wp_bind (wp_read (wp_bind (wp_update (wp_pure
    ⟨fun hs => h hs 0, fun hs k => h hs (k + 1), ha, rfl, Nat.le_refl _⟩))))
  clearing c h ha hact := wp_pure (wp_bind (wp_read (wp_bind (wp_update (wp_pure
    ⟨fun hs => h hs 0, fun hs k => h hs (k + 1), rfl, c.alloc.base, Nat.le_refl _,
      (ha.range hact).base_aligned, (ha.range hact).lt, rfl⟩)))))
  filed _ _ _ _ _ _ h _ _ _ := wp_pure ⟨h, rfl, rfl⟩

/-! ### The ledger -/

/-- A call and the answers to its requests for a node. -/
structure Call where
  op : Op
  answers : Nat → Bool

/-- Every request of the call is granted. -/
def Call.Served (c : Call) : Prop := ∀ k, c.answers k = true

/-- An allocator, the memory ever given to it, and the memory it has handed out. -/
structure Ledger where
  alloc : FpageAlloc
  given : Set Nat
  handed : Set Nat

/-- An allocator as `sys$bootstrap` sets it up. -/
def Ledger.empty : Ledger := ⟨⟨fun _ => [], 0, 0, false⟩, fun _ => False, fun _ => False⟩

/-- The call with its answers. -/
def Call.outcome (bits : Nat) (c : Call) (L : Ledger) : Outcome Empty Cell Fault (List (Nat × Nat)) :=
  c.op.exec quietEnv bits ⟨L.alloc, c.answers⟩

/-- What the call hands out. -/
def Call.handsOut (bits : Nat) (c : Call) (L : Ledger) : List (Nat × Nat) :=
  match (c.outcome bits L).result with
  | .ok es => es
  | .error _ => []

/-- One call. -/
def perform (bits : Nat) (c : Call) (L : Ledger) : Except Fault Ledger :=
  match (c.outcome bits L).result with
  | .ok es => .ok ⟨(c.outcome bits L).state.alloc, fun x => x ∈ L.given ∨ 0 < c.op.freed x,
      fun x => (x ∈ L.handed ∧ c.op.freed x = 0) ∨ 0 < covers es x⟩
  | .error e => .error e

/-- What holds of every outcome of the call, with every answer or with some. -/
theorem perform_of_wp {bits : Nat} {c : Call} {L : Ledger}
    {Q : List (Nat × Nat) → Cell → Prop}
    (h : Wp quietJudge (c.op.exec quietEnv bits) ⟨L.alloc, c.answers⟩ Q) :
    Ends (fun e => e = .panic) (fun L' => ∃ answers, Q (c.handsOut bits L) ⟨L'.alloc, answers⟩ ∧
      (∀ x, x ∈ L'.given ↔ x ∈ L.given ∨ 0 < c.op.freed x) ∧
      ∀ x, x ∈ L'.handed ↔ (x ∈ L.handed ∧ c.op.freed x = 0) ∨ 0 < covers (c.handsOut bits L) x)
      (perform bits c L) := by
  have hres : Ends (fun e => e = .panic) (fun es => Q es (c.outcome bits L).state)
      (c.outcome bits L).result := h.ends fun e _ => trivial
  rw [perform, Call.handsOut]
  cases hrun : (c.outcome bits L).result with
  | ok es =>
    rw [hrun] at hres
    cases hres with
    | ok hQ => exact .ok ⟨_, hQ, fun _ => Iff.rfl, fun _ => Iff.rfl⟩
  | error e =>
    rw [hrun] at hres
    cases hres with
    | error he => exact .error he

/-- A call that gives `op.freed` and hands out `es`. -/
structure Performed (bits : Nat) (c : Call) (L L' : Ledger) : Prop where
  ainv : AInv bits L'.alloc
  le : ∀ x, own L'.alloc x + covers (c.handsOut bits L) x ≤ own L.alloc x + c.op.freed x
  eq : c.Served → c.op.removes = false →
    ∀ x, own L'.alloc x + covers (c.handsOut bits L) x = own L.alloc x + c.op.freed x
  given : ∀ x, x ∈ L'.given ↔ x ∈ L.given ∨ 0 < c.op.freed x
  handed : ∀ x, x ∈ L'.handed ↔
    (x ∈ L.handed ∧ c.op.freed x = 0) ∨ 0 < covers (c.handsOut bits L) x

/-- The arguments are in order, and a call that takes memory out of the free lists has its
    nodes. -/
structure Call.Steady (bits : Nat) (c : Call) (L : Ledger) : Prop where
  legal : c.op.Legal bits L.alloc
  fits : c.op.Fits
  takes : c.op.takes = true → c.Served

/-- **One call on the ledger.** -/
theorem perform_spec {bits : Nat} (hb : PageBits bits) {c : Call} {L : Ledger}
    (ha : AInv bits L.alloc) (hc : c.Steady bits L) :
    Ends (fun e => e = .panic) (Performed bits c L) (perform bits c L) := by
  have hwp := Op.exec_wp hb (quietContract bits c.Served) c.op (hc.legal.proper hb hc.fits) hc.takes
    ⟨L.alloc, c.answers⟩ (fun h => h) ha
  refine (perform_of_wp hwp).mono ?_
  rintro L' ⟨answers, ⟨-, h2, h3⟩, hgiven, hhanded⟩
  exact ⟨h2, h3.le, fun hs hr => h3.eq ⟨hs, hr⟩, hgiven, hhanded⟩

/-- Nothing is lost and nothing is owned twice: every free flexpage is in the list of its
    order, an address is free at most once, and what was given is either free or handed
    out. -/
structure Conserved (bits : Nat) (L : Ledger) : Prop where
  ainv : AInv bits L.alloc
  once : ∀ x, own L.alloc x ≤ 1
  given : ∀ x, x ∈ L.given ↔ 0 < own L.alloc x ∨ x ∈ L.handed
  apart : ∀ x, ¬ (0 < own L.alloc x ∧ x ∈ L.handed)

theorem own_empty (x : Nat) : own Ledger.empty.alloc x = 0 := by
  have hlists : total (fpageSpan x) Ledger.empty.alloc.flist (maxFpageOrder + 1) = 0 :=
    total_eq_zero fun _ _ _ hf => absurd hf List.not_mem_nil
  rw [own, hlists, Nat.zero_add]
  exact span_zero _ _

theorem ainv_empty (bits : Nat) : AInv bits Ledger.empty.alloc :=
  ⟨fun _ _ hf => absurd hf List.not_mem_nil, fun h => absurd h Bool.false_ne_true⟩

theorem conserved_empty (bits : Nat) : Conserved bits Ledger.empty :=
  ⟨ainv_empty bits, fun x => by rw [own_empty]; exact Nat.zero_le _,
    fun x => by rw [own_empty]; exact ⟨fun h => h.elim, fun h => h.elim (absurd · (by decide)) id⟩,
    fun x h => h.2⟩

theorem Conserved.step {bits : Nat} {c : Call} {L L' : Ledger}
    (hC : Conserved bits L) (hlegal : c.op.Legal bits L.alloc) (hserved : c.Served)
    (hremove : c.op.removes = false) (h : Performed bits c L L') : Conserved bits L' := by
  have hsum : ∀ x, own L'.alloc x + covers (c.handsOut bits L) x ≤ 1 := fun x => by
    rw [h.eq hserved hremove x]
    exact hlegal.apart hC.once x
  refine ⟨h.ainv, fun x => by have := hsum x; omega, fun x => ?_, fun x hx => ?_⟩
  · rw [h.given, h.handed, hC.given]
    have heq := h.eq hserved hremove x
    by_cases hd : c.op.freed x = 0
    · -- not freed now: it was free and stays so or is handed out, or it was handed out
      have := hC.apart x
      constructor
      · rintro ((hf | hf) | hf)
        · by_cases ho : 0 < own L'.alloc x
          · exact Or.inl ho
          · exact Or.inr (Or.inr (by omega))
        · exact Or.inr (Or.inl ⟨hf, hd⟩)
        · omega
      · rintro (hf | ⟨hf, -⟩ | hf)
        · exact Or.inl (Or.inl (by omega))
        · exact Or.inl (Or.inr hf)
        · exact Or.inl (Or.inl (by omega))
    · constructor
      · intro _
        by_cases ho : 0 < own L'.alloc x
        · exact Or.inl ho
        · exact Or.inr (Or.inr (by omega))
      · exact fun _ => Or.inr (by omega)
  · rcases (h.handed x).mp hx.2 with ⟨hf, hd⟩ | hf
    · have heq := h.eq hserved hremove x
      exact hC.apart x ⟨by omega, hf⟩
    · have := hsum x
      omega

/-- What the callers of `sys$fpage_free_chunk` and the other functions see to, when nodes are
    always available and nothing is removed. -/
def Call.Granted (bits : Nat) (c : Call) (L : Ledger) : Prop :=
  c.Served ∧ c.op.removes = false ∧ c.op.Legal bits L.alloc

/-- **Conservation.**  In every sequence of calls whose arguments stay clear of the end of the
    address space, memory is neither lost nor owned twice. -/
theorem runs_conserved {bits : Nat} (hb : PageBits bits) (calls : List Call)
    (h : Along (perform bits) (fun c L => c.Granted bits L ∧ c.op.Fits) calls Ledger.empty) :
    Ends (fun e => e = .panic) (Conserved bits) (runs (perform bits) calls Ledger.empty) := by
  refine runs_induction (fun c L hC hc => ?_) calls _ (conserved_empty bits) h
  obtain ⟨⟨hserved, hremove, hlegal⟩, hfits⟩ := hc
  exact (perform_spec hb hC.ainv ⟨hlegal, hfits, fun _ => hserved⟩).mono fun L' =>
    hC.step hlegal hserved hremove

/-- One megabyte is given, parts of it are handed out in every way. -/
def handOut : List Call :=
  [⟨.freeChunk 0x100000 0x1fffff, fun _ => true⟩, ⟨.allocChunk 0x3000, fun _ => true⟩,
    ⟨.allocInternal, fun _ => true⟩, ⟨.allocList 0x40000 0x46fff 0x1000, fun _ => true⟩,
    ⟨.clearInternal, fun _ => true⟩]

theorem handOut_conserved : fault (runs (perform 12) handOut Ledger.empty) = none ∧
    Ends (fun e => e = .panic) (Conserved 12) (runs (perform 12) handOut Ledger.empty) := by
  have hbits : PageBits 12 := ⟨by decide, by decide⟩
  constructor
  · decide +kernel
  refine runs_conserved hbits handOut ?_
  refine ⟨⟨⟨fun _ => rfl, rfl, ⟨⟨by decide, by decide⟩, by decide, by decide, fun x _ _ =>
    own_empty x⟩⟩, by decide, fun h => absurd h (by decide)⟩, fun L₁ _ => ?_⟩
  refine ⟨⟨⟨fun _ => rfl, rfl, by decide, by decide⟩, (by decide : 0x3000 ≤ 2 ^ 63)⟩, fun L₂ _ => ?_⟩
  refine ⟨⟨⟨fun _ => rfl, rfl, trivial⟩, trivial⟩, fun L₃ _ => ?_⟩
  refine ⟨⟨⟨fun _ => rfl, rfl, trivial⟩, trivial⟩, fun L₄ _ => ?_⟩
  exact ⟨⟨⟨fun _ => rfl, rfl, trivial⟩, trivial⟩, fun L₅ _ => trivial⟩

/-- The last page of the address space: `internal.base` wraps to 0 when the page is filed, the
    loop goes on with the nil page, and files it at `flist[-min_pagebits]`. -/
theorem free_last_page_out_of_bounds :
    ¬ ∀ calls, Along (perform 12) (Call.Granted 12) calls Ledger.empty →
      Ends (fun e => e = .panic) (Conserved 12) (runs (perform 12) calls Ledger.empty) := by
  intro h
  refine not_ends_of_fault (e := Fault.outOfBounds) ?_ (by decide)
    (h [⟨.freeChunk (2 ^ 64 - 4096) (2 ^ 64 - 1), fun _ => true⟩] ?_)
  · decide +kernel
  · exact ⟨⟨fun _ => rfl, rfl, ⟨by decide, by decide⟩, by decide, by decide, fun x _ _ =>
      own_empty x⟩, fun L _ => trivial⟩

end FreeVMS.Alloc
