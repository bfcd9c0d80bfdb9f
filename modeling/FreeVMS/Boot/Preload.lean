import FreeVMS.Boot.MemInit
import FreeVMS.Kernel.LookupSpec

/-!
# Preloaded objects in the object table

`sys$populate_init_objects` makes a memsection of the kernel for every preloaded object.  `obj->end` is
the last byte of an object, but the size that is passed is `obj->end - base`, so the memsection ends one
byte early; the memsection of one byte at the start of a page is empty, and that of the byte 0 wraps
around to the whole address space.

The memsections of `freevms_pd` are all on the list that `sys$objtable_lookup` walks through, so what
is found does not depend on the order in the tree: an address is found if and only if a memsection
of the list contains it.
-/

namespace FreeVMS.Boot

open Kernel BTree LinkRing Run Alloc

/-- A preloaded object, with the address of the memsection that it gets and the slab pools that are
    made while it is created. -/
structure Load where
  obj : InitialObj
  node : Nat
  pools : List Memsection

/-- `obj->flags & VMS$IOF_VIRT` -/
def Load.virt (l : Load) : Bool := l.obj.flags &&& iofVirt != 0

/-- `objtable_setup_internal`: the memsection as it is filled in. -/
def setupInternal (addr size base : Nat) : Memsection := ⟨addr, base, wordAdd base (wordSub size 1)⟩

/-- The memsection of an object. -/
def Load.memsection (pagesize : Nat) (l : Load) : Memsection :=
  let base := pageRoundDown l.obj.base pagesize
  setupInternal l.node (wordSub l.obj.end_ base) base

/-- Slab pools go to `internal_memsections`. -/
def withPools (pools : List Memsection) (s : Table) : Table :=
  pools.foldl (fun s o => s.append .internal o) s

/-- `sys$pd_create_memsection` for `freevms_pd` with `VMS$MEM_INTERNAL`; `none` when it does not return,
    `false` for `NULL`. -/
def createInternal (order pagesize : Nat) (l : Load) (s : Table) : Option (Bool × Table) :=
  let s := withPools l.pools s
  match objtableInsert order s (l.memsection pagesize) with
  | none => none
  | some (r, t, pool) =>
      if r = 0 then
        some (true, { s with objtable := t, pool := pool }.append
          (if s.initialized then .pd 0 else .internal) (l.memsection pagesize))
      else some (false, { s with objtable := t, pool := pool })

inductive LoadFault where
  | panic
  /-- a call that does not return -/
  | stuck
deriving DecidableEq, Repr

/-- A round of the loop. -/
def populateStep (order pagesize : Nat) (l : Load) (s : Table) : Except LoadFault Table :=
  if l.virt then
    match createInternal order pagesize l s with
    | none => .error .stuck
    | some (false, _) => .error .panic
    | some (true, s) =>
        match objtableLookup s l.obj.base with
        | none => .error .stuck
        | some none => .error .panic
        | some (some _) => .ok s
  else .ok s

/-- `sys$populate_init_objects` -/
def populateInitObjects (order pagesize : Nat) (loads : List Load) (s : Table) :
    Except LoadFault Table :=
  runs (populateStep order pagesize) loads s

/-- `sys$objtable_lookup` returns a memsection. -/
def Finds (s : Table) (a : Nat) : Prop := ∃ m, objtableLookup s a = some (some m)

/-- No panic, and every address of every object is found. -/
def Findable (order pagesize : Nat) (loads : List Load) (s : Table) : Prop :=
  ∃ s', populateInitObjects order pagesize loads s = .ok s' ∧
    ∀ l ∈ loads, l.virt = true → ∀ a, l.obj.base ≤ a → a ≤ l.obj.end_ → Finds s' a

/-- The objects have no page in common. -/
def PageApart (pagesize : Nat) (x y : InitialObj) : Prop :=
  pageRoundDown x.end_ pagesize < pageRoundDown y.base pagesize ∨
    pageRoundDown y.end_ pagesize < pageRoundDown x.base pagesize

/-- The address is found without the memsections of the objects, or a memsection wraps around. -/
def BesideEnd (s : Table) (loads : List Load) (a : Nat) : Prop :=
  Finds s a ∨ ∃ l ∈ loads, l.virt = true ∧
    ((∃ x ∈ l.pools, x.Contains a) ∨ (l.obj.base = 0 ∧ l.obj.end_ = 0))

/-- The condition: the last byte of each object is found without the memsection of the object, and
    when there is no other byte, at once. -/
def LastBytes (s : Table) (loads : List Load) : Prop :=
  (∀ l ∈ loads, l.virt = true → BesideEnd s loads l.obj.end_) ∧
    ∀ pre l post, loads = pre ++ l :: post → l.virt = true → l.obj.base = l.obj.end_ →
      BesideEnd s (pre ++ [l]) l.obj.end_

/-! ### What is found -/

/-- After boot: the cells of the ring, and a tree whose objects are on it. -/
structure Ready (order : Nat) (s : Table) (v : List Ptr) : Prop where
  lists : Lists s v
  initialized : s.initialized = true
  head : ∃ l₂ l₁, v = l₂ ++ .pd 0 :: l₁ ∧ s.links.prev (.pd 0) = lastOf .internal l₂
  length : v.length ≤ s.count + 1
  pages : ∀ i, s.pool.grant i ≠ none
  tree : ∃ t, s.objtable = some t ∧ Formed order false 0 t ∧ ∀ x ∈ objs t.root, Listed s v x

/-- A cell of the ring contains the address. -/
def OnRing (s : Table) (v : List Ptr) (a : Nat) : Prop := ∃ x ∈ v, (s.data x).Contains a

section

variable {order pagesize : Nat} {s s' : Table} {v : List Ptr} {a : Nat}

/-- A lookup returns, and finds what is on the ring. -/
theorem Ready.lookup (h : Ready order s v) (a : Nat) :
    ∃ m, objtableLookup s a = some m ∧ (m ≠ none ↔ OnRing s v a) := by
  obtain ⟨t, ht, hform, hobjs⟩ := h.tree
  have hwalk : walk s.links.next s.data (s.links.next .internal) a (s.count + 3)
      (s.links.next .internal) = some (firstMatch s.data a v) :=
    walk_ring h.lists.hangs (by have := h.length; omega)
  have hlist : firstMatch s.data a v ≠ none ↔ OnRing s v a := by
    constructor
    · intro hm
      obtain ⟨o, ho⟩ := Option.ne_none_iff_exists'.mp hm
      obtain ⟨x, hx, rfl, hcontains⟩ := firstMatch_some ho
      exact ⟨x, hx, hcontains⟩
    · rintro ⟨x, hx, hcontains⟩ hm
      exact firstMatch_none hm x hx hcontains
  rcases hform with hnull | ⟨n, -, hg⟩
  · refine ⟨_, ?_, hlist⟩
    simp only [objtableLookup, ht, objBTSearch, hnull, hwalk]
  · obtain ⟨o, ho, hmem⟩ := searchPage_mem a n t.root hg
    obtain ⟨count, isleaf, pad, key, child, hroot⟩ := hg.page_eq
    have hsearch : objBTSearch (some t) a =
        some (if btObjMatch o a then .ok else .notFound, some o) := by
      rw [hroot] at ho
      simp only [objBTSearch, hroot, ho]
    by_cases hmatch : btObjMatch o a = true
    · rw [if_pos hmatch] at hsearch
      refine ⟨some o, by simp only [objtableLookup, ht, hsearch], ?_⟩
      obtain ⟨n, hn, hdata⟩ := hobjs o hmem
      refine iff_of_true (Option.some_ne_none _) ⟨.node n, hn, ?_⟩
      rw [hdata]
      exact (btObjMatch_iff _ _).mp hmatch
    · rw [if_neg hmatch] at hsearch
      exact ⟨_, by simp only [objtableLookup, ht, hsearch, hwalk], hlist⟩

theorem Ready.finds_iff (h : Ready order s v) (a : Nat) : Finds s a ↔ OnRing s v a := by
  obtain ⟨m, hm, hiff⟩ := h.lookup a
  rw [← hiff, Finds, hm, Option.ne_none_iff_exists']
  simp only [Option.some.injEq]

/-! ### The loop -/

/-- What is on the ring after an insertion. -/
theorem onRing_append (h : Lists s v) (list : Ptr) (o : Memsection) {v' : List Ptr}
    (hv' : ∀ x, x ∈ v' ↔ x = .node s.count ∨ x ∈ v) (a : Nat) :
    OnRing (s.append list o) v' a ↔ OnRing s v a ∨ o.Contains a := by
  have hnew : (s.append list o).data (.node s.count) = o := Function.update_self _ _ _
  have hold : ∀ x ∈ v, (s.append list o).data x = s.data x :=
    fun x hx => data_append list o fun heq => h.fresh (heq ▸ List.mem_cons_of_mem _ hx)
  constructor
  · rintro ⟨x, hx, hcontains⟩
    rcases (hv' x).mp hx with rfl | hx
    · exact .inr (hnew ▸ hcontains)
    · exact .inl ⟨x, hx, hold x hx ▸ hcontains⟩
  · rintro (⟨x, hx, hcontains⟩ | hcontains)
    · exact ⟨x, (hv' x).mpr (.inr hx), (hold x hx).symm ▸ hcontains⟩
    · exact ⟨.node s.count, (hv' _).mpr (.inl rfl), hnew.symm ▸ hcontains⟩

theorem Ready.append_internal (h : Ready order s v) (o : Memsection) :
    Ready order (s.append .internal o) (v ++ [.node s.count]) ∧
      ∀ a, Finds (s.append .internal o) a ↔ Finds s a ∨ o.Contains a := by
  have hmem : ∀ x, x ∈ v ++ [Ptr.node s.count] ↔ x = .node s.count ∨ x ∈ v := fun x => by
    rw [List.mem_append, List.mem_singleton, or_comm]
  obtain ⟨l₂, l₁, hcells, hprev⟩ := h.head
  obtain ⟨t, ht, hform, hobjs⟩ := h.tree
  have hready : Ready order (s.append .internal o) (v ++ [.node s.count]) := by
    refine ⟨h.lists.append_internal o, h.initialized,
      ⟨l₂, l₁ ++ [.node s.count], by rw [hcells, List.append_assoc]; rfl, ?_⟩, ?_, h.pages,
      t, ht, hform, fun x hx => (listed_append h.lists .internal o hmem x).mpr (.inr (hobjs x hx))⟩
    · rw [← hprev]
      exact s.links.append_prev_of_ne (fun heq => by cases heq) fun heq => by cases heq
    · rw [List.length_append]
      exact Nat.succ_le_succ h.length
  refine ⟨hready, fun a => ?_⟩
  rw [hready.finds_iff, h.finds_iff, onRing_append h.lists .internal o hmem]

theorem Ready.append_pools (pools : List Memsection) : ∀ {s : Table} {v : List Ptr},
    Ready order s v → ∃ v', Ready order (withPools pools s) v' ∧
      ∀ a, Finds (withPools pools s) a ↔ Finds s a ∨ ∃ x ∈ pools, x.Contains a := by
  induction pools with
  | nil => exact fun h => ⟨_, h, fun a => by simp [withPools]⟩
  | cons o pools ih =>
    intro s v h
    obtain ⟨hready, hfinds⟩ := h.append_internal o
    obtain ⟨v', hready', hfinds'⟩ := ih hready
    refine ⟨v', hready', fun a => ?_⟩
    change Finds (withPools pools (s.append .internal o)) a ↔ _
    rw [hfinds', hfinds, or_assoc]
    simp only [List.mem_cons, exists_eq_or_imp]

/-- `objtable_insert` returns 0, whether the object is stored or not. -/
theorem Ready.insert (hv : ValidOrder order) (h : Ready order s v) (o : Memsection) :
    ∃ t t' pool', s.objtable = some t ∧ objtableInsert order s o = some (0, some t', pool') ∧
      Formed order false 0 t' ∧ (∀ x ∈ objs t'.root, x = o ∨ x ∈ objs t.root) ∧
      ∀ i, pool'.grant i ≠ none := by
  obtain ⟨t, ht, hform, -⟩ := h.tree
  obtain ⟨out, hout, hgrant, hform', hstep⟩ :=
    objBTIns_spec hv (Nat.zero_le _) hform (fun hk => absurd hk (by decide)) .null s.pool
  obtain ⟨r, hr, hzero⟩ := insert_code_zero_iff hout
  have hboth : out.status = .ok ∧ ∀ x ∈ objs out.btree.root, x = o ∨ x ∈ objs t.root := by
    cases hstep with
    | refused _ _ hstatus htree => exact ⟨hstatus, fun x hx => .inr (htree ▸ hx)⟩
    | stored _ _ hstatus hput =>
      exact ⟨hstatus, fun x hx => List.mem_cons.mp (hput.perm.mem_iff.mp hx)⟩
    | starved _ hfail => exact absurd hfail.choose_spec.2 (h.pages _)
    | rootless _ _ _ hfail => exact absurd hfail (h.pages _)
  obtain rfl := hzero.mpr hboth.1
  refine ⟨t, out.btree, out.pool, ht, ?_, hform', hboth.2, fun i => ?_⟩
  · rw [objtableInsert, if_pos h.initialized, ht]
    simp only [hr, Option.map_some]
  · rw [hgrant]
    exact h.pages i

/-- The memsection of an object goes to the list of `freevms_pd`. -/
theorem Ready.append_pd (h : Ready order s v) (o : Memsection) {t t' : BTreeS} {pool' : PagePool}
    (ht : s.objtable = some t) (hform : Formed order false 0 t')
    (hobjs : ∀ x ∈ objs t'.root, x = o ∨ x ∈ objs t.root) (hpool : ∀ i, pool'.grant i ≠ none) :
    ∃ v', Ready order ({ s with objtable := some t', pool := pool' }.append (.pd 0) o) v' ∧
      ∀ a, Finds ({ s with objtable := some t', pool := pool' }.append (.pd 0) o) a ↔
        Finds s a ∨ o.Contains a := by
  obtain ⟨l₂, l₁, rfl, hprev⟩ := h.head
  have hlists : Lists { s with objtable := some t', pool := pool' } (l₂ ++ .pd 0 :: l₁) :=
    ⟨h.lists.hangs, h.lists.cells, h.lists.others⟩
  have hmem : ∀ x, x ∈ l₂ ++ Ptr.node s.count :: .pd 0 :: l₁ ↔
      x = .node s.count ∨ x ∈ l₂ ++ .pd 0 :: l₁ := by
    intro x
    simp only [List.mem_append, List.mem_cons]
    tauto
  have hready : Ready order ({ s with objtable := some t', pool := pool' }.append (.pd 0) o)
      (l₂ ++ .node s.count :: .pd 0 :: l₁) := by
    refine ⟨hlists.append_pd hprev o, h.initialized, ⟨l₂ ++ [.node s.count], l₁, ?_, ?_⟩, ?_, hpool,
      t', rfl, hform, fun x hx => (listed_append hlists (.pd 0) o hmem x).mpr ?_⟩
    · rw [List.append_assoc]
      rfl
    · rw [lastOf_append]
      exact s.links.append_prev_self _ _
    · have hlen := h.length
      simp only [List.length_append, List.length_cons, Table.append] at hlen ⊢
      omega
    · rcases hobjs x hx with rfl | hx
      · exact .inl rfl
      · obtain ⟨t₀, ht₀, -, hold⟩ := h.tree
        obtain rfl : t = t₀ := Option.some.inj (ht.symm.trans ht₀)
        exact .inr (hold x hx)
  refine ⟨_, hready, fun a => ?_⟩
  rw [hready.finds_iff, h.finds_iff]
  exact onRing_append hlists (.pd 0) o hmem a

/-- The memsections that are made for an object. -/
def Load.sections (pagesize : Nat) (l : Load) : List Memsection :=
  if l.virt then l.pools ++ [l.memsection pagesize] else []

/-- **A round of the loop** panics if and only if the base of the object is not found then. -/
theorem Ready.step (hv : ValidOrder order) (h : Ready order s v) (pagesize : Nat) (l : Load) :
    ∃ s' v', Ready order s' v' ∧
      (∀ a, Finds s' a ↔ Finds s a ∨ ∃ x ∈ l.sections pagesize, x.Contains a) ∧
      (populateStep order pagesize l s = .ok s' ∧ (l.virt = true → Finds s' l.obj.base) ∨
        populateStep order pagesize l s = .error .panic ∧ l.virt = true ∧ ¬ Finds s' l.obj.base) := by
  cases hvirt : l.virt with
  | false =>
    refine ⟨s, v, h, fun a => by simp [Load.sections, hvirt], .inl ⟨?_, nofun⟩⟩
    rw [populateStep, hvirt]
    rfl
  | true =>
    obtain ⟨v₁, h₁, hfinds₁⟩ := h.append_pools l.pools
    obtain ⟨t, t', pool', ht, hins, hform, hobjs, hpool⟩ := h₁.insert hv (l.memsection pagesize)
    obtain ⟨v', h', hfinds'⟩ := h₁.append_pd (l.memsection pagesize) ht hform hobjs hpool
    have hcreate : createInternal order pagesize l s = some (true,
        { withPools l.pools s with objtable := some t', pool := pool' }.append (.pd 0)
          (l.memsection pagesize)) := by
      simp only [createInternal, hins, if_pos, h₁.initialized]
    refine ⟨_, v', h', fun a => ?_, ?_⟩
    · rw [hfinds', hfinds₁, or_assoc]
      simp only [Load.sections, hvirt, if_true, List.mem_append, List.mem_singleton, or_and_right,
        exists_or, exists_eq_left]
    · obtain ⟨m, hm, hiff⟩ := h'.lookup l.obj.base
      rw [← h'.finds_iff] at hiff
      rw [populateStep, if_pos hvirt, hcreate]
      dsimp only
      rw [hm]
      cases m with
      | none => exact .inr ⟨rfl, rfl, fun hfound => absurd rfl (hiff.mpr hfound)⟩
      | some m => exact .inl ⟨rfl, fun _ => hiff.mp (Option.some_ne_none _)⟩

/-- The address is found once the memsections of the objects are there too. -/
def Known (s : Table) (pagesize : Nat) (loads : List Load) (a : Nat) : Prop :=
  Finds s a ∨ ∃ l ∈ loads, ∃ x ∈ l.sections pagesize, x.Contains a

/-- **The loop** comes to its end if and only if the base of each object is found in its round, and
    then finds what was found before and what is in the new memsections. -/
theorem Ready.run (hv : ValidOrder order) (pagesize : Nat) (loads : List Load) :
    ∀ {s : Table} {v : List Ptr}, Ready order s v →
      ((∃ s', populateInitObjects order pagesize loads s = .ok s') ↔
        ∀ pre l post, loads = pre ++ l :: post → l.virt = true →
          Known s pagesize (pre ++ [l]) l.obj.base) ∧
      ∀ s', populateInitObjects order pagesize loads s = .ok s' →
        ∀ a, Finds s' a ↔ Known s pagesize loads a := by
  induction loads with
  | nil =>
    intro s v _
    refine ⟨iff_of_true ⟨s, rfl⟩ fun pre l post h => absurd h (by simp), fun s' hs' a => ?_⟩
    obtain rfl : s = s' := Except.ok.inj hs'
    simp [Known]
  | cons l loads ih =>
    intro s v h
    obtain ⟨s₁, v₁, h₁, hfinds, hstep⟩ := h.step hv pagesize l
    have hknown : ∀ ls a, Known s₁ pagesize ls a ↔ Known s pagesize (l :: ls) a := by
      intro ls a
      simp only [Known, hfinds, List.mem_cons, exists_eq_or_imp, or_assoc]
    have hbase : Known s pagesize [l] l.obj.base ↔ Finds s₁ l.obj.base := by
      rw [← hknown []]
      simp [Known]
    rcases hstep with ⟨hok, hfound⟩ | ⟨hpanic, hvirt, hlost⟩
    · obtain ⟨ihrun, ihfinds⟩ := ih h₁
      have hrun : populateInitObjects order pagesize (l :: loads) s =
          populateInitObjects order pagesize loads s₁ := by
        rw [populateInitObjects, runs, hok]
        rfl
      rw [hrun, ihrun]
      refine ⟨⟨fun hall pre l' post heq hvirt => ?_, fun hall pre l' post heq hvirt => ?_⟩,
        fun s' hs' a => by rw [ihfinds s' hs' a, hknown]⟩
      · cases pre with
        | nil =>
          obtain ⟨rfl, -⟩ := List.cons.inj heq
          exact hbase.mpr (hfound hvirt)
        | cons x pre =>
          obtain ⟨rfl, htail⟩ := List.cons.inj heq
          exact (hknown _ _).mp (hall pre l' post htail hvirt)
      · exact (hknown _ _).mpr (hall (l :: pre) l' post (by rw [heq]; rfl) hvirt)
    · have hrun : populateInitObjects order pagesize (l :: loads) s = .error .panic := by
        rw [populateInitObjects, runs, hpanic]
      rw [hrun]
      refine ⟨iff_of_false ?_ fun hall => ?_, fun _ hs' => by cases hs'⟩
      · rintro ⟨_, hs'⟩
        cases hs'
      · exact hlost (hbase.mp (hall [] l loads rfl hvirt))

end

/-! ### The addresses of an object -/

theorem pageRoundDown_mono (pagesize : Nat) {x y : Nat} (h : x ≤ y) :
    pageRoundDown x pagesize ≤ pageRoundDown y pagesize :=
  Nat.mul_le_mul_right _ (Nat.div_le_div_right h)

theorem pageRoundDown_idem (x pagesize : Nat) :
    pageRoundDown (pageRoundDown x pagesize) pagesize = pageRoundDown x pagesize := by
  rcases Nat.eq_zero_or_pos pagesize with rfl | hpos
  · simp [pageRoundDown]
  · rw [pageRoundDown, pageRoundDown, Nat.mul_div_cancel _ hpos]

/-- The memsection of an object ends before the last byte of the object, or wraps around. -/
theorem memsection_contains {pagesize : Nat} {l : Load} (hle : l.obj.base ≤ l.obj.end_)
    (hend : l.obj.end_ < wordSize) {a : Nat} (ha : a < wordSize) :
    (l.memsection pagesize).Contains a ↔
      (l.obj.base = 0 ∧ l.obj.end_ = 0) ∨
        (pageRoundDown l.obj.base pagesize ≤ a ∧ a < l.obj.end_) := by
  have hdown := pageRoundDown_le l.obj.base pagesize
  simp only [Load.memsection, setupInternal, Memsection.Contains]
  generalize pageRoundDown l.obj.base pagesize = base at hdown ⊢
  have hsize : wordSub l.obj.end_ base = l.obj.end_ - base := by
    simp only [wordSub, wordSize] at *
    omega
  rw [hsize]
  by_cases h0 : l.obj.end_ = base
  · have hbyte : wordAdd base (wordSub (l.obj.end_ - base) 1) =
        if base = 0 then wordSize - 1 else base - 1 := by
      simp only [wordAdd, wordSub, wordSize] at *
      split <;> omega
    rw [hbyte]
    split <;> omega
  · have hlast : wordAdd base (wordSub (l.obj.end_ - base) 1) = l.obj.end_ - 1 := by
      simp only [wordAdd, wordSub, wordSize] at *
      omega
    rw [hlast]
    omega

/-- The objects of a list that are entered are in order, and have no pages in common. -/
structure Proper (pagesize : Nat) (loads : List Load) : Prop where
  bounds : ∀ l ∈ loads, l.virt = true → l.obj.base ≤ l.obj.end_ ∧ l.obj.end_ < wordSize
  apart : loads.Pairwise fun l l' =>
    l.virt = true → l'.virt = true → PageApart pagesize l.obj l'.obj

section

variable {pagesize : Nat} {loads : List Load} {s : Table}

/-- The last byte of an object is in the memsection of no other one. -/
theorem Proper.last_byte (h : Proper pagesize loads) {l l' : Load} (hl : l ∈ loads)
    (hl' : l' ∈ loads) (hvirt : l.virt = true) (hvirt' : l'.virt = true) :
    (l'.memsection pagesize).Contains l.obj.end_ ↔ l'.obj.base = 0 ∧ l'.obj.end_ = 0 := by
  obtain ⟨hle, hend⟩ := h.bounds l hl hvirt
  obtain ⟨hle', hend'⟩ := h.bounds l' hl' hvirt'
  rw [memsection_contains hle' hend' hend]
  refine ⟨fun hin => hin.resolve_right fun hin => ?_, .inl⟩
  by_cases heq : l' = l
  · rw [heq] at hin
    omega
  · have hap : PageApart pagesize l'.obj l.obj := by
      have hsymm : Std.Symm fun l l' : Load =>
          l.virt = true → l'.virt = true → PageApart pagesize l.obj l'.obj :=
        ⟨fun x y hxy hy hx => (hxy hx hy).symm⟩
      exact h.apart.forall hl' hl heq hvirt' hvirt
    have h₁ := pageRoundDown_mono pagesize (hle.trans hin.2.le)
    have h₂ := pageRoundDown_mono pagesize hin.1
    rw [pageRoundDown_idem] at h₂
    simp only [PageApart] at hap
    omega

/-- The last byte of an object is found beside the memsections of the objects, or not at all. -/
theorem Proper.known_last (h : Proper pagesize loads) {sub : List Load} (hsub : ∀ l ∈ sub, l ∈ loads)
    {l : Load} (hl : l ∈ loads) (hvirt : l.virt = true) :
    Known s pagesize sub l.obj.end_ ↔ BesideEnd s sub l.obj.end_ := by
  refine or_congr Iff.rfl (exists_congr fun l' => and_congr_right fun hl' => ?_)
  cases hvirt' : l'.virt with
  | false => simp [Load.sections, hvirt']
  | true =>
    simp only [Load.sections, hvirt', if_true, List.mem_append, List.mem_singleton, or_and_right,
      exists_or, exists_eq_left, true_and]
    rw [h.last_byte hl (hsub l' hl') hvirt hvirt']

/-- The other bytes are in the memsection of the object. -/
theorem Proper.known_inner (h : Proper pagesize loads) {sub : List Load} {l : Load} (hl : l ∈ loads)
    (hsub : l ∈ sub) (hvirt : l.virt = true) {a : Nat} (hbase : l.obj.base ≤ a)
    (hend : a < l.obj.end_) : Known s pagesize sub a := by
  obtain ⟨hle, hword⟩ := h.bounds l hl hvirt
  refine .inr ⟨l, hsub, l.memsection pagesize, by simp [Load.sections, hvirt], ?_⟩
  exact (memsection_contains hle hword (hend.trans hword)).mpr
    (.inr ⟨(pageRoundDown_le _ _).trans hbase, hend⟩)

theorem Ready.findable_iff {order : Nat} (hv : ValidOrder order) {v : List Ptr} (h : Ready order s v)
    (hproper : Proper pagesize loads) : Findable order pagesize loads s ↔ LastBytes s loads := by
  obtain ⟨hok, hfinds⟩ := h.run hv pagesize loads
  constructor
  · rintro ⟨s', hs', hall⟩
    refine ⟨fun l hl hvirt => ?_, fun pre l post heq hvirt hbyte => ?_⟩
    · have hfound := hall l hl hvirt l.obj.end_ (hproper.bounds l hl hvirt).1 (Nat.le_refl _)
      rw [hfinds s' hs'] at hfound
      exact (hproper.known_last (fun _ => id) hl hvirt).mp hfound
    · have hknown := hok.mp ⟨s', hs'⟩ pre l post heq hvirt
      rw [hbyte] at hknown
      refine (hproper.known_last (fun x hx => ?_) (by simp [heq]) hvirt).mp hknown
      rcases List.mem_append.mp hx with hx | hx
      · simp [heq, hx]
      · simp [heq, List.mem_singleton.mp hx]
  · rintro ⟨hlast, hfirst⟩
    obtain ⟨s', hs'⟩ := hok.mpr fun pre l post heq hvirt => by
      have hl : l ∈ loads := by simp [heq]
      rcases Nat.lt_or_eq_of_le (hproper.bounds l hl hvirt).1 with hlt | hbyte
      · exact hproper.known_inner hl (by simp) hvirt (Nat.le_refl _) hlt
      · rw [hbyte]
        refine (hproper.known_last (fun x hx => ?_) hl hvirt).mpr (hfirst pre l post heq hvirt hbyte)
        rcases List.mem_append.mp hx with hx | hx
        · simp [heq, hx]
        · simp [heq, List.mem_singleton.mp hx]
    refine ⟨s', hs', fun l hl hvirt a hbase hend => ?_⟩
    rw [hfinds s' hs']
    rcases Nat.lt_or_eq_of_le hend with hlt | rfl
    · exact hproper.known_inner hl hl hvirt hbase hlt
    · exact (hproper.known_last (fun _ => id) hl hvirt).mpr (hlast l hl hvirt)

end

/-! ### After boot -/

/-- The calls up to `sys$populate_init_objects`: after `sys$pd_init`, only slab pools are made. -/
def BootCall (order p : Nat) (c : TableCall) (s : Table) : Prop :=
  c.Legal order p s ∧ (s.initialized = true → ∃ o, c = .pool o)

/-- Nothing is put into the tree. -/
theorem treeObjs_boot {order p : Nat} {c : TableCall} {s s' : Table} (hc : BootCall order p c s)
    (hs' : tableStep order p c s = .ok s') (h : treeObjs s = []) : treeObjs s' = [] := by
  cases c with
  | pool o =>
    obtain rfl := Except.ok.inj hs'
    exact h
  | objtableInit =>
    obtain rfl := Except.ok.inj hs'
    rfl
  | pdInit =>
    simp only [tableStep] at hs'
    split at hs'
    · cases hs'
    · obtain rfl := Except.ok.inj hs'
      exact h
  | create k o =>
    have hno : ¬ s.initialized = true := fun hinit => by
      obtain ⟨o', ho'⟩ := hc.2 hinit
      cases ho'
    have hins : objtableInsert order s o = some (0, s.objtable, s.pool) := if_neg hno
    simp only [tableStep, hins, ↓reduceIte] at hs'
    obtain rfl := Except.ok.inj hs'
    exact h

theorem ready_of_boot {order : Nat} (hv : ValidOrder order) (p : Nat) {pool : PagePool}
    (hpool : ∀ i, pool.grant i ≠ none) (calls : List TableCall) {s : Table}
    (hboot : Along (tableStep order p) (BootCall order p) calls (Table.init pool))
    (hrun : runs (tableStep order p) calls (Table.init pool) = .ok s) (hinit : s.initialized = true) :
    ∃ v, Ready order s v := by
  have hinv := runs_induction (I := fun s => (∃ v, TInv order p s v) ∧ treeObjs s = [])
    (A := fun _ => False) (fun c s h hc => ?_) calls (Table.init pool) ⟨⟨[], tinv_init hpool⟩, rfl⟩ hboot
  · rw [hrun] at hinv
    cases hinv with
    | ok h =>
      obtain ⟨⟨v, h⟩, htree⟩ := h
      cases h.phase with
      | booting hno => rw [hinit] at hno; cases hno
      | booted l₂ l₁ _ hcells hprev hlen _ htable _ =>
        obtain ⟨t, ht⟩ := htable
        rw [treeObjs, ht] at htree
        refine ⟨v, h.lists, hinit, ⟨l₂, l₁, hcells, hprev⟩, hlen, h.pages, t, ht, ?_, ?_⟩
        · rcases (h.kept t ht).formed with hnull | ⟨n, -, hg⟩
          · exact .inl hnull
          · exact absurd htree hg.objs_ne_nil
        · intro x hx
          rw [show objs t.root = [] from htree] at hx
          exact absurd hx List.not_mem_nil
  · have hstep := TInv.step hv h.1 hc.1
    cases hs' : tableStep order p c s with
    | ok s' =>
      rw [hs'] at hstep
      cases hstep with
      | ok hinv => exact .ok ⟨hinv, treeObjs_boot hc hs' h.2⟩
    | error e =>
      rw [hs'] at hstep
      cases hstep with
      | error hno => exact hno.elim

/-- **Preloaded objects.**  After any boot, every address of every preloaded object is found and no
    panic comes up, if and only if the last byte of each object is in a memsection that was there
    before, in a slab pool that was made meanwhile, or in the memsection that wraps around, and that of
    an object of one byte already when its turn comes. -/
theorem findable_iff_lastBytes {order : Nat} (hv : ValidOrder order) (p : Nat) {pool : PagePool}
    (hpool : ∀ i, pool.grant i ≠ none) (calls : List TableCall) {s : Table}
    (hboot : Along (tableStep order p) (BootCall order p) calls (Table.init pool))
    (hrun : runs (tableStep order p) calls (Table.init pool) = .ok s) (hinit : s.initialized = true)
    (pagesize : Nat) (loads : List Load) (hproper : Proper pagesize loads) :
    Findable order pagesize loads s ↔ LastBytes s loads := by
  obtain ⟨v, h⟩ := ready_of_boot hv p hpool calls hboot hrun hinit
  exact h.findable_iff hv hproper

/-- A slab pool, and then the object table. -/
def shortBoot : List TableCall :=
  [.pool ⟨0x40000100, 0x40000000, 0x40000fff⟩, .objtableInit, .pdInit]

theorem shortBoot_legal :
    Along (tableStep 255 0x180000) (BootCall 255 0x180000) shortBoot (Table.init endlessPool) :=
  .cons rfl ⟨by decide +kernel, nofun⟩ (.cons rfl ⟨by decide +kernel, nofun⟩
    (.cons rfl ⟨by decide +kernel, nofun⟩ trivial))

/-- An object that ends with the first byte of a page, where a slab pool is made. -/
theorem findable_under_pool : ∃ s, runs (tableStep 255 0x180000) shortBoot (Table.init endlessPool) =
      .ok s ∧
    Findable 255 0x1000
      [⟨⟨0x100000, 0x101000, iofVirt⟩, 0x40000200, [⟨0x40000300, 0x101000, 0x101fff⟩]⟩] s := by
  refine ⟨_, rfl, (findable_iff_lastBytes deployed_order 0x180000 endlessPool_grants shortBoot
    shortBoot_legal rfl rfl 0x1000 _ ⟨?_, ?_⟩).mpr ⟨?_, ?_⟩⟩
  · simp [wordSize]
  · simp
  · intro l hl _
    obtain rfl := List.mem_singleton.mp hl
    exact .inr ⟨_, List.mem_singleton_self _, rfl, .inl ⟨_, List.mem_singleton_self _, by
      decide, by decide⟩⟩
  · intro pre l post heq _ hbyte
    have hl : l ∈ pre ++ l :: post := by simp
    rw [← heq, List.mem_singleton] at hl
    subst hl
    exact absurd hbyte (by decide)

/-- The last byte of an object is not found. -/
theorem last_byte_lost :
    Along (tableStep 255 0x180000) (BootCall 255 0x180000) shortBoot (Table.init endlessPool) ∧
    ∃ s, runs (tableStep 255 0x180000) shortBoot (Table.init endlessPool) = .ok s ∧
    Proper 0x1000 [⟨⟨0x100000, 0x1fffff, iofVirt⟩, 0x40000200, []⟩] ∧
    ¬ Findable 255 0x1000 [⟨⟨0x100000, 0x1fffff, iofVirt⟩, 0x40000200, []⟩] s := by
  obtain ⟨s, s', hs, hs', hlost⟩ : ∃ s s',
      runs (tableStep 255 0x180000) shortBoot (Table.init endlessPool) = .ok s ∧
      populateInitObjects 255 0x1000 [⟨⟨0x100000, 0x1fffff, iofVirt⟩, 0x40000200, []⟩] s = .ok s' ∧
      objtableLookup s' 0x1fffff = some none :=
    ⟨_, _, rfl, rfl, by decide +kernel⟩
  refine ⟨shortBoot_legal, s, hs, ⟨by simp [wordSize], by simp⟩, ?_⟩
  rintro ⟨s'', hs'', hall⟩
  obtain rfl : s' = s'' := Except.ok.inj (hs'.symm.trans hs'')
  obtain ⟨m, hm⟩ := hall _ (List.mem_singleton_self _) rfl 0x1fffff (by decide) (by decide)
  rw [hlost] at hm
  cases hm

end FreeVMS.Boot
