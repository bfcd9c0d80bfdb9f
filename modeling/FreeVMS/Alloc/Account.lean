import FreeVMS.Alloc.Code

/-!
# What an allocator owns

`own a x` counts how often address `x` is free in the allocator `a`, over all free lists
and the internal range.  Every function of the allocator is specified by what it does to
this count.

`Contract` is what the functions rely on when they call back for a node: the account
`acct`, which is `own` plus whatever else the environment books on this allocator, does not
change, and in the middle of `sys$fpage_clear_internal` the range being cleared is still
there.
-/

namespace FreeVMS.Alloc

open Trace Cover

/-- The addresses of a flexpage. -/
def fpageSpan (x : Nat) (f : Fpage) : Nat := span (l4Address f) (l4Size f) x

/-- How often `x` lies in a flexpage of the list. -/
def coverList (l : List Fpage) (x : Nat) : Nat := weight (fpageSpan x) l

theorem coverList_cons (f : Fpage) (l : List Fpage) (x : Nat) :
    coverList (f :: l) x = fpageSpan x f + coverList l x := weight_cons _ _ _

theorem coverList_append (l l' : List Fpage) (x : Nat) :
    coverList (l ++ l') x = coverList l x + coverList l' x := weight_append _ _ _

/-- The size of the internal range. -/
def FpageAlloc.rangeSize (a : FpageAlloc) : Nat :=
  if a.active then a.end_ + 1 - a.base else 0

/-- How often `x` is free. -/
def own (a : FpageAlloc) (x : Nat) : Nat :=
  total (fpageSpan x) a.flist (maxFpageOrder + 1) + span a.base a.rangeSize x

/-- The bytes in the free lists. -/
def listBytes (a : FpageAlloc) : Nat := total l4Size a.flist (maxFpageOrder + 1)

/-- Every list holds blocks of its own order. -/
def Filed (bits : Nat) (flist : Nat → List Fpage) : Prop :=
  ∀ i, ∀ f ∈ flist i, ∃ b, Block bits i f b

/-- The invariant of `struct fpage_alloc`. -/
structure AInv (bits : Nat) (a : FpageAlloc) : Prop where
  filed : Filed bits a.flist
  range : a.active = true → Span bits a.base a.end_

section

variable {bits i b : Nat} {f : Fpage}

theorem Block.span_eq (hb : PageBits bits) (h : Block bits i f b) (x : Nat) :
    fpageSpan x f = span b (2 ^ (i + bits)) x := by
  rw [fpageSpan, h.address hb, h.size hb]

theorem Block.index_lt (h : Block bits i f b) : i < maxFpageOrder + 1 := by
  have := h.small
  simp only [maxFpageOrder]
  omega

/-- A flexpage appended to its list. -/
def FpageAlloc.file (a : FpageAlloc) (i : Nat) (f : Fpage) : FpageAlloc :=
  { a with flist := Function.update a.flist i (a.flist i ++ [f]) }

theorem own_file (a : FpageAlloc) (f : Fpage) {i : Nat} (hi : i < maxFpageOrder + 1) (x : Nat) :
    own (a.file i f) x = own a x + fpageSpan x f := by
  have h := total_update (fpageSpan x) a.flist (a.flist i ++ [f]) hi
  rw [weight_append, weight_cons, weight_nil] at h
  show total (fpageSpan x) (Function.update a.flist i (a.flist i ++ [f])) (maxFpageOrder + 1) +
    span a.base a.rangeSize x = own a x + fpageSpan x f
  rw [own]
  omega

theorem listBytes_file (a : FpageAlloc) (f : Fpage) {i : Nat} (hi : i < maxFpageOrder + 1) :
    listBytes (a.file i f) = listBytes a + l4Size f := by
  have h := total_update l4Size a.flist (a.flist i ++ [f]) hi
  rw [weight_append, weight_cons, weight_nil] at h
  simp only [listBytes, FpageAlloc.file]
  omega

theorem Filed.file {flist : Nat → List Fpage} (h : Filed bits flist) (hf : Block bits i f b) :
    Filed bits (Function.update flist i (flist i ++ [f])) := by
  intro j g hg
  by_cases hj : j = i
  · subst hj
    rw [Function.update_self] at hg
    rcases List.mem_append.mp hg with hg | hg
    · exact h j g hg
    · obtain rfl := List.mem_singleton.mp hg
      exact ⟨b, hf⟩
  · rw [Function.update_of_ne hj] at hg
    exact h j g hg

theorem Filed.tail {flist : Nat → List Fpage} (h : Filed bits flist) {rest : List Fpage}
    (hl : flist i = f :: rest) : Filed bits (Function.update flist i rest) := by
  intro j g hg
  by_cases hj : j = i
  · subst hj
    rw [Function.update_self] at hg
    exact h j g (by rw [hl]; exact List.mem_cons_of_mem _ hg)
  · rw [Function.update_of_ne hj] at hg
    exact h j g hg

/-- List `i` exchanged for `rest`. -/
def FpageAlloc.relist (a : FpageAlloc) (i : Nat) (rest : List Fpage) : FpageAlloc :=
  { a with flist := Function.update a.flist i rest }

/-- Taking the first flexpage of a list. -/
theorem own_tail (a : FpageAlloc) {rest : List Fpage} (hl : a.flist i = f :: rest)
    (hi : i < maxFpageOrder + 1) (x : Nat) :
    own (a.relist i rest) x + fpageSpan x f = own a x := by
  have h := total_update (fpageSpan x) a.flist rest hi
  rw [hl, weight_cons] at h
  show total (fpageSpan x) (Function.update a.flist i rest) (maxFpageOrder + 1) +
    span a.base a.rangeSize x + fpageSpan x f = own a x
  rw [own]
  omega

theorem listBytes_tail (a : FpageAlloc) {rest : List Fpage} (hl : a.flist i = f :: rest)
    (hi : i < maxFpageOrder + 1) : listBytes (a.relist i rest) + l4Size f = listBytes a := by
  have h := total_update l4Size a.flist rest hi
  rw [hl, weight_cons] at h
  simp only [listBytes, FpageAlloc.relist]
  omega

/-- The internal range exchanged for `[base, end_]`. -/
def FpageAlloc.withRange (a : FpageAlloc) (base end_ : Nat) : FpageAlloc :=
  { a with base := base, end_ := end_, active := true }

theorem own_withRange (a : FpageAlloc) (base end_ x : Nat) :
    own (a.withRange base end_) x + span a.base a.rangeSize x =
      own a x + span base (end_ + 1 - base) x := by
  show total (fpageSpan x) a.flist (maxFpageOrder + 1) + span base (end_ + 1 - base) x +
    span a.base a.rangeSize x = own a x + span base (end_ + 1 - base) x
  rw [own]
  omega

/-- The internal range without its first `n` addresses. -/
def FpageAlloc.advance (a : FpageAlloc) (n : Nat) : FpageAlloc := { a with base := a.base + n }

theorem own_advance (a : FpageAlloc) {n : Nat} (hact : a.active = true)
    (hn : a.base + n ≤ a.end_ + 1) (x : Nat) :
    own (a.advance n) x + span a.base n x = own a x := by
  have hsplit : a.end_ + 1 - a.base = n + (a.end_ + 1 - (a.base + n)) := by omega
  simp only [own, FpageAlloc.advance, FpageAlloc.rangeSize, hact, if_true]
  rw [hsplit, span_add]
  omega

/-- Between `a` and `a'` flexpages were only appended to the lists.  The appended ones and the
    internal range that is left lie in `d`; with the range, no list got more than `n` bytes. -/
structure Appends (a a' : FpageAlloc) (d : Nat → Nat) (n : Nat) : Prop where
  lists : ∀ j, ∃ t, a'.flist j = a.flist j ++ t ∧ ∀ f ∈ t, ∀ x, fpageSpan x f ≤ d x
  range : ∀ x, span a'.base a'.rangeSize x ≤ d x
  bytes : ∀ j, weight l4Size (a'.flist j) + a'.rangeSize ≤ weight l4Size (a.flist j) + n

theorem Appends.refl (a : FpageAlloc) :
    Appends a a (span a.base a.rangeSize) a.rangeSize :=
  ⟨fun _ => ⟨[], (List.append_nil _).symm, fun _ hf => absurd hf List.not_mem_nil⟩,
    fun _ => Nat.le_refl _, fun _ => Nat.le_refl _⟩

/-- Giving up addresses at the beginning of the range. -/
theorem Appends.narrow {a : FpageAlloc} {b : Nat} (hb : a.base ≤ b) :
    Appends a { a with base := b } (span a.base a.rangeSize) a.rangeSize := by
  have hrs : FpageAlloc.rangeSize { a with base := b } = if a.active then a.end_ + 1 - b else 0 := rfl
  refine ⟨fun _ => ⟨[], (List.append_nil _).symm, fun _ hf => absurd hf List.not_mem_nil⟩,
    fun x => ?_, fun j => ?_⟩
  · show span b (FpageAlloc.rangeSize { a with base := b }) x ≤ _
    rw [hrs, FpageAlloc.rangeSize]
    cases a.active with
    | false => exact Nat.le_of_eq ((span_zero _ _).trans (span_zero _ _).symm)
    | true =>
      rw [if_pos rfl, if_pos rfl]
      exact span_mono hb (by omega)
  · rw [hrs, FpageAlloc.rangeSize]
    show weight l4Size (a.flist j) + _ ≤ _
    cases a.active with
    | false => exact Nat.le_refl _
    | true =>
      rw [if_pos rfl, if_pos rfl]
      omega

theorem Appends.trans {a a' a'' : FpageAlloc} {d d' e : Nat → Nat} {n n' m : Nat}
    (h : Appends a a' d n) (h' : Appends a' a'' d' n') (hd : ∀ x, d x ≤ e x)
    (hd' : ∀ x, d' x ≤ e x) (hn : n' ≤ a'.rangeSize + m) : Appends a a'' e (n + m) := by
  refine ⟨fun j => ?_, fun x => Nat.le_trans (h'.range x) (hd' x), fun j => ?_⟩
  · obtain ⟨t, ht, hin⟩ := h.lists j
    obtain ⟨t', ht', hin'⟩ := h'.lists j
    refine ⟨t ++ t', by rw [ht', ht, List.append_assoc], fun f hf x => ?_⟩
    rcases List.mem_append.mp hf with hf | hf
    · exact Nat.le_trans (hin f hf x) (hd x)
    · exact Nat.le_trans (hin' f hf x) (hd' x)
  · have h1 := h.bytes j
    have h2 := h'.bytes j
    omega

theorem Appends.deactivate (a : FpageAlloc) :
    Appends a { a with active := false } (span a.base a.rangeSize) a.rangeSize := by
  refine ⟨fun _ => ⟨[], (List.append_nil _).symm, fun _ hf => absurd hf List.not_mem_nil⟩,
    fun x => ?_, fun j => Nat.add_le_add_left (Nat.zero_le _) _⟩
  show span a.base 0 x ≤ _
  rw [span_zero]
  exact Nat.zero_le _

theorem Appends.withRange (a : FpageAlloc) (base end_ : Nat) :
    Appends a (a.withRange base end_) (span base (end_ + 1 - base)) (end_ + 1 - base) :=
  ⟨fun _ => ⟨[], (List.append_nil _).symm, fun _ hf => absurd hf List.not_mem_nil⟩,
    fun _ => Nat.le_refl _, fun _ => Nat.le_refl _⟩

/-- Moving the first `2 ^ k` addresses of the range to a list. -/
theorem Appends.file_advance {a : FpageAlloc} {f : Fpage} {n : Nat} (hact : a.active = true)
    (haddr : l4Address f = a.base) (hsize : l4Size f = n) (hn : a.base + n ≤ a.end_ + 1) (i : Nat) :
    Appends a ((a.file i f).advance n) (span a.base a.rangeSize) a.rangeSize := by
  have hrs : a.rangeSize = n + (a.end_ + 1 - (a.base + n)) := by
    rw [FpageAlloc.rangeSize, hact, if_pos rfl]
    omega
  have hrs' : ((a.file i f).advance n).rangeSize = a.end_ + 1 - (a.base + n) := by
    show (if a.active = true then a.end_ + 1 - (a.base + n) else 0) = _
    rw [if_pos hact]
  have hsplit : ∀ x, span a.base a.rangeSize x = fpageSpan x f +
      span (a.base + n) (a.end_ + 1 - (a.base + n)) x := fun x => by
    rw [hrs, span_add, fpageSpan, haddr, hsize]
  refine ⟨fun j => ?_, fun x => ?_, fun j => ?_⟩
  · show ∃ t, Function.update a.flist i (a.flist i ++ [f]) j = a.flist j ++ t ∧ _
    by_cases hj : j = i
    · subst hj
      refine ⟨[f], Function.update_self _ _ _, fun g hg x => ?_⟩
      obtain rfl := List.mem_singleton.mp hg
      have := hsplit x
      omega
    · exact ⟨[], by rw [Function.update_of_ne hj, List.append_nil],
        fun _ hf => absurd hf List.not_mem_nil⟩
  · rw [hrs']
    show span (a.base + n) _ x ≤ _
    have := hsplit x
    omega
  · rw [hrs', hrs]
    show weight l4Size (Function.update a.flist i (a.flist i ++ [f]) j) + _ ≤ _
    by_cases hj : j = i
    · subst hj
      rw [Function.update_self, weight_append, weight_cons, weight_nil, hsize]
      omega
    · rw [Function.update_of_ne hj]
      omega

end

/-! ### The contract with the environment -/

section Contract

variable {ε σ : Type}

/-- What a function needs that only gives nodes back. -/
structure Base (bits : Nat) (E : Env ε σ) (J : Judge ε Fault) where
  Inv : σ → Prop
  acct : σ → Nat → Nat
  panic : J.allowed .panic
  get_set : ∀ a s, E.get (E.set a s) = a
  inv_set : ∀ a s, Inv s → Inv (E.set a s)
  acct_set : ∀ a s x, acct (E.set a s) x + own (E.get s) x = acct s x + own a x
  slabFree : ∀ s, Inv s →
    Wp J E.slabFree s fun _ s' => Inv s' ∧ E.get s' = E.get s ∧ acct s' = acct s

/-- What a function needs that asks for nodes.  `reliable` says that no request is turned
    down. -/
structure Contract (bits : Nat) (E : Env ε σ) (J : Judge ε Fault) extends Base bits E J where
  reliable : Prop
  slabAlloc : ∀ s, Inv s → AInv bits (E.get s) →
    Wp J E.slabAlloc s fun r s' => (reliable → r = true) ∧ Inv s' ∧ AInv bits (E.get s') ∧
      acct s' = acct s ∧ listBytes (E.get s') ≤ listBytes (E.get s)
  clearing : ∀ s, Inv s → AInv bits (E.get s) → (E.get s).active = true →
    Wp J E.clearing s fun _ s₁ => Wp J E.slabAlloc s₁ fun r s' =>
      (reliable → r = true) ∧ Inv s' ∧ acct s' = acct s ∧
      ∃ b, (E.get s).base ≤ b ∧ b % 2 ^ bits = 0 ∧ b < (E.get s).end_ ∧
        E.get s' = { E.get s with base := b }
  filed : ∀ s lo hi f i b, Inv s → Block bits i f b → lo ≤ b → b + 2 ^ (i + bits) ≤ hi + 1 →
    Wp J (E.filed lo hi f) s fun _ s' => Inv s' ∧ E.get s' = E.get s ∧ acct s' = acct s

variable {E : Env ε σ} {J : Judge ε Fault} {bits : Nat}

theorem wp_alloc {s : σ} {Q : FpageAlloc → σ → Prop} (h : Q (E.get s) s) :
    Wp J E.alloc s Q :=
  wp_bind (wp_read (wp_pure h))

theorem wp_modify {s : σ} {f : FpageAlloc → FpageAlloc} {Q : Unit → σ → Prop}
    (h : Q () (E.set (f (E.get s)) s)) : Wp J (E.modify f) s Q :=
  wp_update h

theorem wp_insertTail (hb : PageBits bits) {s : σ} {i b : Nat} {f g : Fpage}
    {Q : Unit → σ → Prop} (hg : Block bits i g b)
    (h : Q () (E.set ((E.get s).file i f) s)) : Wp J (insertTail E (fpOrder bits g) f) s Q := by
  have hi := hg.index_lt
  simp only [maxFpageOrder] at hi
  rw [insertTail, hg.order hb]
  refine wp_ite (fun _ => wp_modify ?_) fun hno => absurd ⟨by omega, ?_⟩ hno
  · exact h
  · simp only [maxFpageOrder]
    omega

end Contract

end FreeVMS.Alloc
