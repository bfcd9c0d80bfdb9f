import FreeVMS.Kernel.Reentry
import Mathlib.Data.List.Nodup

/-!
# Slabs and their pools

The slab caches of `sys_slab.c` with the addresses of the slabs.  There may be any number of caches.
A pool is one page; a pool of `ms_cache` begins with its own memsection, the memsection of another
pool is a slab of `ms_cache`.

While `sys$memsection_create_cache` waits for a page, the page allocators may come back for slabs of
any cache, and give some back.  So the caches are a machine that is driven by calls and by the answers
of the page allocators, with a stack of the pools that are being made.
-/

namespace FreeVMS.Pools

open Alloc Run

variable {ι : Type}

/-- The caches: the size of a slab of each, and which of them is `ms_cache`, whose slabs have the size of
    a `struct memsection_node`.  A page has room for a slab. -/
structure Caches (ι : Type) [DecidableEq ι] where
  bits : Nat
  ms : ι
  slabSize : ι → Nat
  bits_lt : bits < 64
  slabSize_pos : ∀ sc, 0 < slabSize sc
  fits : ∀ sc, (if sc = ms then slabSize ms else 0) + slabSize sc ≤ 2 ^ bits

/-- The memsection of a pool, with its free slabs. -/
structure SlabPool (ι : Type) where
  cache : ι
  base : Nat
  phys : Nat
  slabs : List Nat
deriving DecidableEq

/-- A slab that has been handed out, and the page of the pool it came from; the code keeps no such
    record. -/
structure Obj (ι : Type) where
  cache : ι
  addr : Nat
  pool : Nat
deriving DecidableEq

structure Slabs (ι : Type) where
  pools : List (SlabPool ι)
  live : List (Obj ι)
deriving DecidableEq

/-- What `sys$memsection_create_cache` waits for: a page of virtual memory, a page of physical memory, a
    slab for the new memsection, or that pages have been given back. -/
inductive Stage where
  | virt
  | phys (virt : Nat)
  | node (virt phys : Nat)
  | undo
deriving DecidableEq

structure Frame (ι : Type) where
  cache : ι
  stage : Stage
deriving DecidableEq

structure PoolState (ι : Type) where
  slabs : Slabs ι
  stack : List (Frame ι)
deriving DecidableEq

section

variable [DecidableEq ι] (C : Caches ι)

/-- The loop of `sys$memsection_create_cache` that makes the slabs. -/
def slabLoop (size end_ : Nat) : Nat → Nat → Except Fault (List Nat)
  | 0, _ => .error .diverge
  | fuel + 1, virt =>
      if wordAdd virt (size - 1) ≤ end_ then
        (slabLoop size end_ fuel (wordAdd virt size)).map (virt :: ·)
      else .ok []

/-- Where the slabs of a pool begin. -/
def Caches.first (sc : ι) (virt : Nat) : Nat :=
  if sc = C.ms then wordAdd virt (C.slabSize C.ms) else virt

/-- The end of `sys$memsection_create_cache`, and of `sys$slab_cache_alloc` after it: a new pool, and its
    first slab is taken. -/
def fillPool (sc : ι) (virt phys : Nat) (s : Slabs ι) : Except Fault (Nat × Slabs ι) := do
  let slabs ← slabLoop (C.slabSize sc) (wordAdd virt (2 ^ C.bits - 1)) (2 ^ C.bits + 1) (C.first sc virt)
  match slabs with
  | [] => .error .outOfBounds
  | slab :: rest => .ok (slab, ⟨s.pools ++ [⟨sc, virt, phys, rest⟩], ⟨sc, slab, virt⟩ :: s.live⟩)

/-- `sys$slab_cache_alloc` returns to the caller, which can be `sys$memsection_create_cache`. -/
def deliver : Option Nat → List (Frame ι) → Slabs ι → Except Fault (PoolState ι)
  | some _, ⟨sc, .node virt phys⟩ :: stack, s => do
      let (slab, s) ← fillPool C sc virt phys s
      deliver (some slab) stack s
  | none, ⟨sc, .node _ _⟩ :: stack, s => .ok ⟨s, ⟨sc, .undo⟩ :: stack⟩
  | _, stack, s => .ok ⟨s, stack⟩

/-- The first slab of the first pool of the cache that has one. -/
def takeSlab (sc : ι) : List (SlabPool ι) → Option (Obj ι × List (SlabPool ι))
  | [] => none
  | pool :: pools =>
      match decide (pool.cache = sc), pool.slabs with
      | true, slab :: slabs => some (⟨sc, slab, pool.base⟩, { pool with slabs := slabs } :: pools)
      | _, _ => (takeSlab sc pools).map fun r => (r.1, pool :: r.2)

/-- `sys$slab_cache_alloc`. -/
def slabCacheAlloc (sc : ι) (s : PoolState ι) : Except Fault (PoolState ι) :=
  match takeSlab sc s.slabs.pools with
  | some (o, pools) => deliver C (some o.addr) s.stack ⟨pools, o :: s.slabs.live⟩
  | none => .ok { s with stack := ⟨sc, .virt⟩ :: s.stack }

/-- The slab goes to the end of the pool that `sys$objtable_lookup` finds, the one whose page has the
    address. -/
def insertSlab (ptr : Nat) : List (SlabPool ι) → Option (List (SlabPool ι))
  | [] => none
  | pool :: pools =>
      if pool.base ≤ ptr ∧ ptr ≤ pool.base + (2 ^ C.bits - 1) then
        some ({ pool with slabs := pool.slabs ++ [ptr] } :: pools)
      else (insertSlab ptr pools).map (pool :: ·)

/-- `sys$slab_cache_free`. -/
def slabCacheFree (sc : ι) (ptr : Nat) (s : PoolState ι) : Except Fault (PoolState ι) :=
  match insertSlab C ptr s.slabs.pools with
  | some pools =>
      .ok { s with slabs := ⟨pools, s.slabs.live.filter fun o => ¬ (o.cache = sc ∧ o.addr = ptr)⟩ }
  | none => .error .outOfBounds

/-- Calls of the caches, and answers of the page allocators. -/
inductive Input (ι : Type) where
  | alloc (sc : ι)
  | free (sc : ι) (ptr : Nat)
  /-- `sys$fpage_alloc_internal(&vm_alloc, ..)` returns -/
  | virt (mem : Nat)
  /-- `sys$fpage_alloc_internal(&pm_alloc, ..)` returns -/
  | phys (mem : Nat)
  /-- the pages of a pool that can not be made are given back -/
  | undone
deriving DecidableEq

/-- An answer goes to the pool on top of the stack, if this waits for it. -/
def poolStep (i : Input ι) (s : PoolState ι) : Except Fault (PoolState ι) :=
  match i, s.stack with
  | .alloc sc, _ => slabCacheAlloc C sc s
  | .free sc ptr, _ => slabCacheFree C sc ptr s
  | .virt mem, ⟨sc, .virt⟩ :: stack =>
      if mem = invalidAddr then deliver C none stack s.slabs
      else if mem % 2 ^ C.bits ≠ 0 then .error .panic
      else .ok { s with stack := ⟨sc, .phys mem⟩ :: stack }
  | .phys mem, ⟨sc, .phys virt⟩ :: stack =>
      if mem = invalidAddr then .ok { s with stack := ⟨sc, .undo⟩ :: stack }
      else if mem % 2 ^ C.bits ≠ 0 then .error .panic
      else if sc = C.ms then do
        let (slab, slabs) ← fillPool C sc virt mem s.slabs
        deliver C (some slab) stack slabs
      else slabCacheAlloc C C.ms { s with stack := ⟨sc, .node virt mem⟩ :: stack }
  | .undone, ⟨_, .undo⟩ :: stack => deliver C none stack s.slabs
  | _, _ => .ok s

/-- The page of virtual memory that a pool in the making holds. -/
def Frame.page (f : Frame ι) : Option Nat :=
  match f.stage with
  | .phys virt => some virt
  | .node virt _ => some virt
  | _ => none

/-- All pages of virtual memory that the caches have. -/
def PoolState.pages (s : PoolState ι) : List Nat :=
  s.slabs.pools.map (·.base) ++ s.stack.filterMap Frame.page

/-- What the callers promise, and the page allocators: an object that is freed is live; a page is aligned,
    not the last one of the address space, and not in use. -/
def Input.Legal (i : Input ι) (s : PoolState ι) : Prop :=
  match i with
  | .free sc ptr => ∃ o ∈ s.slabs.live, o.cache = sc ∧ o.addr = ptr
  | .virt mem =>
      mem = invalidAddr ∨ (mem % 2 ^ C.bits = 0 ∧ mem + 2 ^ C.bits < wordSize ∧ mem ∉ s.pages)
  | .phys mem => mem = invalidAddr ∨ mem % 2 ^ C.bits = 0
  | _ => True

instance decidableLegal : ∀ (i : Input ι) (s : PoolState ι), Decidable (i.Legal C s)
  | .alloc _, _ => isTrue trivial
  | .free sc ptr, s => inferInstanceAs (Decidable (∃ o ∈ s.slabs.live, o.cache = sc ∧ o.addr = ptr))
  | .virt _, _ => inferInstanceAs (Decidable (_ ∨ _))
  | .phys _, _ => inferInstanceAs (Decidable (_ ∨ _))
  | .undone, _ => isTrue trivial

/-! ### The invariant -/

/-- An address where a pool at `base` has a slab. -/
def Caches.Slot (sc : ι) (base addr : Nat) : Prop :=
  ∃ i, addr = (base + if sc = C.ms then C.slabSize C.ms else 0) + i * C.slabSize sc ∧
    addr + C.slabSize sc ≤ base + 2 ^ C.bits

/-- **The slabs are well**: the pages of the pools and those held for new pools are all different; the
    free slabs of a pool are different slabs of it; a live object is a slab of the pool it came from
    and not among its free ones; and no two live objects are at the same address. -/
structure SlabsWell (s : Slabs ι) (held : List Nat) : Prop where
  pages : (s.pools.map (·.base) ++ held).Nodup
  whole : ∀ v ∈ s.pools.map (·.base) ++ held, v % 2 ^ C.bits = 0 ∧ v + 2 ^ C.bits < wordSize
  slots : ∀ p ∈ s.pools, ∀ a ∈ p.slabs, C.Slot p.cache p.base a
  nodup : ∀ p ∈ s.pools, p.slabs.Nodup
  live : ∀ o ∈ s.live, C.Slot o.cache o.pool o.addr ∧
    ∃ p ∈ s.pools, p.base = o.pool ∧ p.cache = o.cache ∧ o.addr ∉ p.slabs
  addrs : (s.live.map (·.addr)).Nodup

variable {C} {sc : ι} {base addr virt : Nat} {p q : SlabPool ι} {l r : List (SlabPool ι)}
  {o : Obj ι} {live : List (Obj ι)} {s : Slabs ι} {held : List Nat}

theorem Caches.Slot.inside (h : C.Slot sc base addr) : base ≤ addr ∧
    addr + C.slabSize sc ≤ base + 2 ^ C.bits ∧ (sc = C.ms → base + C.slabSize C.ms ≤ addr) := by
  obtain ⟨i, rfl, hle⟩ := h
  refine ⟨by omega, hle, fun hms => ?_⟩
  rw [if_pos hms]
  omega

/-- Different slabs of one pool do not overlap. -/
theorem Caches.Slot.apart {addr' : Nat} (h : C.Slot sc base addr) (h' : C.Slot sc base addr')
    (hne : addr ≠ addr') : addr + C.slabSize sc ≤ addr' ∨ addr' + C.slabSize sc ≤ addr := by
  obtain ⟨i, rfl, -⟩ := h
  obtain ⟨j, rfl, -⟩ := h'
  rcases Nat.lt_trichotomy i j with hlt | rfl | hlt
  · have hmul := Nat.mul_le_mul_right (C.slabSize sc) hlt
    rw [Nat.succ_mul] at hmul
    exact .inl (by omega)
  · exact absurd rfl hne
  · have hmul := Nat.mul_le_mul_right (C.slabSize sc) hlt
    rw [Nat.succ_mul] at hmul
    exact .inr (by omega)

theorem SlabsWell.pages_apart {v w : Nat} (h : SlabsWell C s held)
    (hv : v ∈ s.pools.map (·.base) ++ held) (hw : w ∈ s.pools.map (·.base) ++ held) (hne : v ≠ w) :
    v + 2 ^ C.bits ≤ w ∨ w + 2 ^ C.bits ≤ v := by
  rcases Nat.lt_or_gt_of_ne hne with hlt | hgt
  · exact .inl (aligned_gap (h.whole v hv).1 (h.whole w hw).1 hlt)
  · exact .inr (aligned_gap (h.whole w hw).1 (h.whole v hv).1 hgt)

omit [DecidableEq ι] in
theorem mem_pages (hp : p ∈ s.pools) : p.base ∈ s.pools.map (·.base) ++ held :=
  List.mem_append_left _ (List.mem_map_of_mem hp)

/-- A pool is known by its page. -/
theorem SlabsWell.pool_eq (h : SlabsWell C s held) (hp : p ∈ s.pools) (hq : q ∈ s.pools)
    (hbase : p.base = q.base) : p = q :=
  List.inj_on_of_nodup_map (List.nodup_append.mp h.pages).1 hp hq hbase

theorem SlabsWell.drop {v : Nat} (h : SlabsWell C s (v :: held)) : SlabsWell C s held where
  pages := h.pages.sublist (List.Sublist.append_left (List.sublist_cons_self _ _) _)
  whole w hw := h.whole w ((List.Sublist.append_left (List.sublist_cons_self _ _) _).subset hw)
  slots := h.slots
  nodup := h.nodup
  live := h.live
  addrs := h.addrs

theorem SlabsWell.hold {v : Nat} (h : SlabsWell C s held) (hv : v % 2 ^ C.bits = 0)
    (htop : v + 2 ^ C.bits < wordSize) (hnew : v ∉ s.pools.map (·.base) ++ held) :
    SlabsWell C s (v :: held) where
  pages := List.nodup_middle.mpr (List.nodup_cons.mpr ⟨hnew, h.pages⟩)
  whole w hw := by
    rcases List.mem_cons.mp (List.perm_middle.mem_iff.mp hw) with rfl | hw
    · exact ⟨hv, htop⟩
    · exact h.whole w hw
  slots := h.slots
  nodup := h.nodup
  live := h.live
  addrs := h.addrs

/-- A live object is not at an address where another pool has a slab, nor at that of a free slab. -/
theorem SlabsWell.live_ne (h : SlabsWell C s held) (hp : p ∈ s.pools) (ha : addr ∈ p.slabs)
    (ho : o ∈ s.live) : o.addr ≠ addr := by
  rintro rfl
  obtain ⟨hslot, q, hq, hqbase, hqcache, hfree⟩ := h.live o ho
  have hpslot := (h.slots p hp _ ha).inside
  have hoslot := hslot.inside
  by_cases hbase : p.base = q.base
  · obtain rfl := h.pool_eq hp hq hbase
    exact hfree ha
  · have hapart := h.pages_apart (mem_pages hp) (mem_pages hq) hbase
    have hpos := C.slabSize_pos o.cache
    have hpos' := C.slabSize_pos p.cache
    omega

omit [DecidableEq ι] in
/-- The pools of a list, one of them with other slabs. -/
theorem map_base_replace (as : List Nat) :
    (l ++ { p with slabs := as } :: r).map (·.base) = (l ++ p :: r).map (·.base) := by simp

omit [DecidableEq ι] in
theorem mem_replace {p' : SlabPool ι} {as : List Nat} (hp' : p' ∈ l ++ { p with slabs := as } :: r) :
    p' = { p with slabs := as } ∨ p' ∈ l ++ p :: r := by
  simp only [List.mem_append, List.mem_cons] at hp' ⊢
  tauto

omit [DecidableEq ι] in
/-- A pool of the list is still there, with its own slabs or with the others. -/
theorem exists_replace {p' : SlabPool ι} (as : List Nat) (hp' : p' ∈ l ++ p :: r) :
    ∃ q ∈ l ++ { p with slabs := as } :: r, q.base = p'.base ∧ q.cache = p'.cache ∧
      (q.slabs = p'.slabs ∨ (p' = p ∧ q.slabs = as)) := by
  rcases (List.mem_append.mp hp').imp_right List.mem_cons.mp with hp' | rfl | hp'
  · exact ⟨p', List.mem_append_left _ hp', rfl, rfl, .inl rfl⟩
  · exact ⟨{ p' with slabs := as }, by simp, rfl, rfl, .inr ⟨rfl, rfl⟩⟩
  · exact ⟨p', by simp [hp'], rfl, rfl, .inl rfl⟩

/-- The first free slab of a pool is taken. -/
theorem SlabsWell.take {as : List Nat} (h : SlabsWell C ⟨l ++ p :: r, live⟩ held) (hp : p.slabs = addr :: as) :
    SlabsWell C ⟨l ++ { p with slabs := as } :: r, ⟨p.cache, addr, p.base⟩ :: live⟩ held := by
  have hmem : p ∈ l ++ p :: r := by simp
  have haddr : addr ∈ p.slabs := hp ▸ List.mem_cons_self
  have hnodup : (addr :: as).Nodup := hp ▸ h.nodup p hmem
  constructor
  case pages => rw [map_base_replace]; exact h.pages
  case whole => rw [map_base_replace]; exact h.whole
  case slots =>
    intro p' hp' a ha
    rcases mem_replace hp' with rfl | hp'
    · exact h.slots p hmem a (hp ▸ List.mem_cons_of_mem _ ha)
    · exact h.slots p' hp' a ha
  case nodup =>
    intro p' hp'
    rcases mem_replace hp' with rfl | hp'
    · exact (List.nodup_cons.mp hnodup).2
    · exact h.nodup p' hp'
  case live =>
    intro o ho
    rcases List.mem_cons.mp ho with rfl | ho
    · exact ⟨h.slots p hmem addr haddr, { p with slabs := as }, by simp, rfl, rfl,
        (List.nodup_cons.mp hnodup).1⟩
    · obtain ⟨hslot, p', hp', hbase, hcache, hfree⟩ := h.live o ho
      obtain ⟨q, hq, hqbase, hqcache, hqslabs⟩ := exists_replace as hp'
      refine ⟨hslot, q, hq, hqbase.trans hbase, hqcache.trans hcache, ?_⟩
      rcases hqslabs with heq | ⟨rfl, heq⟩
      · rwa [heq]
      · rw [heq]
        rw [hp] at hfree
        exact fun hin => hfree (List.mem_cons_of_mem _ hin)
  case addrs =>
    refine List.nodup_cons.mpr ⟨fun hin => ?_, h.addrs⟩
    obtain ⟨o, ho, heq⟩ := List.mem_map.mp hin
    exact h.live_ne hmem haddr ho heq

/-- A live object is given back to its pool. -/
theorem SlabsWell.giveBack (h : SlabsWell C ⟨l ++ p :: r, live⟩ held) (ho : o ∈ live)
    (hbase : p.base = o.pool) (hcache : p.cache = o.cache) :
    SlabsWell C ⟨l ++ { p with slabs := p.slabs ++ [o.addr] } :: r, live.filter fun o' => o'.addr ≠ o.addr⟩
      held := by
  have hmem : p ∈ l ++ p :: r := by simp
  obtain ⟨hslot, p', hp', hbase', -, hfree⟩ := h.live o ho
  obtain rfl : p = p' := h.pool_eq hmem hp' (hbase.trans hbase'.symm)
  constructor
  case pages => rw [map_base_replace]; exact h.pages
  case whole => rw [map_base_replace]; exact h.whole
  case slots =>
    intro p' hp' a ha
    rcases mem_replace hp' with rfl | hp'
    · rcases List.mem_append.mp ha with ha | ha
      · exact h.slots p hmem a ha
      · rw [List.mem_singleton.mp ha]
        show C.Slot p.cache p.base o.addr
        rwa [hcache, hbase]
    · exact h.slots p' hp' a ha
  case nodup =>
    intro p' hp'
    rcases mem_replace hp' with rfl | hp'
    · exact List.nodup_append.mpr ⟨h.nodup p hmem, List.nodup_singleton _, fun a ha b hb hab =>
        hfree (by rwa [hab, List.mem_singleton.mp hb] at ha)⟩
    · exact h.nodup p' hp'
  case live =>
    intro o' ho'
    obtain ⟨ho', hne⟩ := List.mem_filter.mp ho'
    obtain ⟨hslot', p', hp', hbase', hcache', hfree'⟩ := h.live o' ho'
    obtain ⟨q, hq, hqbase, hqcache, hqslabs⟩ := exists_replace (p.slabs ++ [o.addr]) hp'
    refine ⟨hslot', q, hq, hqbase.trans hbase', hqcache.trans hcache', ?_⟩
    rcases hqslabs with heq | ⟨rfl, heq⟩
    · rwa [heq]
    · rw [heq]
      intro hin
      rcases List.mem_append.mp hin with hin | hin
      · exact hfree' hin
      · exact absurd (List.mem_singleton.mp hin) (of_decide_eq_true hne)
  case addrs => exact h.addrs.sublist ((List.filter_sublist).map _)

theorem slabLoop_ok {size end_ : Nat} (hpos : 0 < size) (hend : end_ + size < wordSize) :
    ∀ fuel virt, virt ≤ end_ + 1 → end_ + 1 - virt < fuel →
      ∃ slabs, slabLoop size end_ fuel virt = .ok slabs ∧
        (∀ a ∈ slabs, ∃ i, a = virt + i * size ∧ a + size ≤ end_ + 1) ∧ slabs.Nodup ∧
        (virt + size ≤ end_ + 1 → ∃ rest, slabs = virt :: rest) := by
  intro fuel
  induction fuel with
  | zero => exact fun virt _ hfuel => absurd hfuel (Nat.not_lt_zero _)
  | succ fuel ih =>
    intro virt hvirt hfuel
    rw [slabLoop, wordAdd, Nat.mod_eq_of_lt (by omega), wordAdd]
    by_cases hroom : virt + (size - 1) ≤ end_
    · rw [if_pos hroom, Nat.mod_eq_of_lt (by omega)]
      obtain ⟨slabs, heq, hslots, hnodup, -⟩ := ih (virt + size) (by omega) (by omega)
      refine ⟨virt :: slabs, by rw [heq]; rfl, fun a ha => ?_, List.nodup_cons.mpr ⟨fun hin => ?_, hnodup⟩,
        fun _ => ⟨slabs, rfl⟩⟩
      · rcases List.mem_cons.mp ha with rfl | ha
        · exact ⟨0, by omega, by omega⟩
        · obtain ⟨i, rfl, hle⟩ := hslots a ha
          exact ⟨i + 1, by rw [Nat.succ_mul]; omega, hle⟩
      · obtain ⟨i, heq, -⟩ := hslots virt hin
        omega
    · rw [if_neg hroom]
      refine ⟨[], rfl, by simp, .nil, fun hle => absurd hle (by omega)⟩

/-- **A new pool.** -/
theorem SlabsWell.fill (h : SlabsWell C s (virt :: held)) (sc : ι) (phys : Nat) :
    ∃ slab s', fillPool C sc virt phys s = .ok (slab, s') ∧ SlabsWell C s' held := by
  have hvirt : virt ∈ s.pools.map (·.base) ++ virt :: held := by simp
  obtain ⟨halign, htop⟩ := h.whole virt hvirt
  have hp : 0 < 2 ^ C.bits := Nat.two_pow_pos _
  have hfits := C.fits sc
  -- the page after this one is not beyond the end of the address space either
  have hnext : virt + 2 ^ C.bits + 2 ^ C.bits ≤ wordSize := by
    refine aligned_gap ?_ ?_ htop
    · rw [Nat.add_mod_right]
      exact halign
    · exact Nat.mod_eq_zero_of_dvd (Nat.pow_dvd_pow 2 C.bits_lt.le)
  have hend : wordAdd virt (2 ^ C.bits - 1) = virt + (2 ^ C.bits - 1) := Nat.mod_eq_of_lt (by omega)
  have hfirst : C.first sc virt = virt + if sc = C.ms then C.slabSize C.ms else 0 := by
    rw [Caches.first]
    split
    · rename_i hms
      rw [if_pos hms] at hfits
      exact Nat.mod_eq_of_lt (by omega)
    · rfl
  have hroom : virt + (2 ^ C.bits - 1) + C.slabSize sc < wordSize := by omega
  obtain ⟨slabs, heq, hslots, hnodup, hsome⟩ := slabLoop_ok (C.slabSize_pos sc) hroom (2 ^ C.bits + 1)
    (virt + if sc = C.ms then C.slabSize C.ms else 0) (by omega) (by omega)
  obtain ⟨rest, rfl⟩ := hsome (by omega)
  rw [← hfirst, ← hend] at heq
  refine ⟨_, _, by rw [fillPool, heq]; rfl, ?_⟩
  have hslots' : ∀ a ∈ C.first sc virt :: rest, C.Slot sc virt a := fun a ha => by
    rw [hfirst] at ha
    obtain ⟨i, ha, hle⟩ := hslots a ha
    exact ⟨i, ha, by omega⟩
  have hpool : SlabsWell C ⟨s.pools ++ [⟨sc, virt, phys, C.first sc virt :: rest⟩], s.live⟩ held := by
    have hperm : (s.pools ++ [(⟨sc, virt, phys, C.first sc virt :: rest⟩ : SlabPool ι)]).map (·.base) ++ held =
        s.pools.map (·.base) ++ virt :: held := by simp
    constructor
    case pages => rw [hperm]; exact h.pages
    case whole => rw [hperm]; exact h.whole
    case slots =>
      intro q hq
      rcases List.mem_append.mp hq with hq | hq
      · exact h.slots q hq
      · rw [List.mem_singleton.mp hq]
        exact hslots'
    case nodup =>
      intro q hq
      rcases List.mem_append.mp hq with hq | hq
      · exact h.nodup q hq
      · rw [List.mem_singleton.mp hq, hfirst]
        exact hnodup
    case live =>
      intro o ho
      obtain ⟨hslot, q, hq, hrest⟩ := h.live o ho
      exact ⟨hslot, q, List.mem_append_left _ hq, hrest⟩
    case addrs => exact h.addrs
  exact hpool.take rfl

/-- The pages that are held for pools in the making. -/
def heldPages (stack : List (Frame ι)) : List Nat := stack.filterMap Frame.page

/-- What holds between the calls of the caches and the answers of the page allocators. -/
def PoolsWell (C : Caches ι) (s : PoolState ι) : Prop := SlabsWell C s.slabs (heldPages s.stack)

/-- The run goes on, and all is well. -/
def Goes (C : Caches ι) (r : Except Fault (PoolState ι)) : Prop := ∃ s, r = .ok s ∧ PoolsWell C s

theorem SlabsWell.deliver (res : Option Nat) (stack : List (Frame ι)) (s : Slabs ι)
    (h : SlabsWell C s (heldPages stack)) : Goes C (deliver C res stack s) := by
  induction stack generalizing res s with
  | nil =>
    refine ⟨⟨s, []⟩, ?_, h⟩
    cases res <;> rfl
  | cons f stack ih =>
    obtain ⟨sc, stage⟩ := f
    cases stage with
    | node virt phys =>
      cases res with
      | none => exact ⟨_, rfl, h.drop⟩
      | some a =>
        obtain ⟨slab, s', hfill, hwell⟩ := SlabsWell.fill h sc phys
        obtain ⟨s'', hs'', hwell''⟩ := ih (some slab) s' hwell
        refine ⟨s'', ?_, hwell''⟩
        rw [Pools.deliver, hfill]
        exact hs''
    | virt =>
      refine ⟨⟨s, ⟨sc, .virt⟩ :: stack⟩, ?_, h⟩
      cases res <;> rfl
    | phys virt =>
      refine ⟨⟨s, ⟨sc, .phys virt⟩ :: stack⟩, ?_, h⟩
      cases res <;> rfl
    | undo =>
      refine ⟨⟨s, ⟨sc, .undo⟩ :: stack⟩, ?_, h⟩
      cases res <;> rfl

theorem takeSlab_some {pools pools' : List (SlabPool ι)} (h : takeSlab sc pools = some (o, pools')) :
    ∃ l p r addr as, pools = l ++ p :: r ∧ p.cache = sc ∧ p.slabs = addr :: as ∧
      o = ⟨sc, addr, p.base⟩ ∧ pools' = l ++ { p with slabs := as } :: r := by
  induction pools generalizing pools' with
  | nil => exact nomatch h
  | cons p pools ih =>
    rw [takeSlab] at h
    split at h
    · rename_i addr as hcache hslabs
      obtain ⟨rfl, rfl⟩ := Prod.mk.inj (Option.some.inj h)
      exact ⟨[], p, pools, addr, as, rfl, of_decide_eq_true hcache, hslabs, rfl, rfl⟩
    · obtain ⟨⟨o', rest⟩, hrest, heq⟩ := Option.map_eq_some_iff.mp h
      obtain ⟨rfl, rfl⟩ := Prod.mk.inj heq
      obtain ⟨l, q, r, addr, as, rfl, hcache, hslabs, ho, rfl⟩ := ih hrest
      exact ⟨p :: l, q, r, addr, as, rfl, hcache, hslabs, ho, rfl⟩

theorem slabCacheAlloc_goes (sc : ι) (s : PoolState ι) (h : PoolsWell C s) :
    Goes C (slabCacheAlloc C sc s) := by
  obtain ⟨⟨pools, live⟩, stack⟩ := s
  rw [slabCacheAlloc]
  split
  · rename_i o pools' htake
    obtain ⟨l, p, r, addr, as, rfl, rfl, hslabs, rfl, rfl⟩ := takeSlab_some htake
    exact SlabsWell.deliver _ _ _ (SlabsWell.take h hslabs)
  · exact ⟨_, rfl, h⟩

theorem insertSlab_eq {ptr : Nat} (h : SlabsWell C s held) (hp : p ∈ s.pools) (hbase : p.base ≤ ptr)
    (hend : ptr < p.base + 2 ^ C.bits) : ∃ l r, s.pools = l ++ p :: r ∧
      insertSlab C ptr s.pools = some (l ++ { p with slabs := p.slabs ++ [ptr] } :: r) := by
  have hfirst : ∀ pools : List (SlabPool ι), pools ⊆ s.pools → p ∈ pools → ∃ l r, pools = l ++ p :: r ∧
      insertSlab C ptr pools = some (l ++ { p with slabs := p.slabs ++ [ptr] } :: r) := by
    intro pools
    induction pools with
    | nil => exact fun _ hp => absurd hp List.not_mem_nil
    | cons q pools ih =>
      intro hsub hp'
      have hq := hsub List.mem_cons_self
      rw [insertSlab]
      by_cases heq : q.base = p.base
      · obtain rfl := h.pool_eq hq hp heq
        refine ⟨[], pools, rfl, ?_⟩
        rw [if_pos (by omega)]
        rfl
      · have hapart := h.pages_apart (mem_pages hq) (mem_pages hp) heq
        rw [if_neg (by omega)]
        rcases List.mem_cons.mp hp' with rfl | hp'
        · exact absurd rfl heq
        · obtain ⟨l, r, rfl, hins⟩ := ih (fun x hx => hsub (List.mem_cons_of_mem _ hx)) hp'
          exact ⟨q :: l, r, rfl, by rw [hins]; rfl⟩
  exact hfirst s.pools (List.Subset.refl _) hp

/-- The object is available again in the pool it came from, and nothing else has changed. -/
def Returned (sc : ι) (ptr : Nat) (s s' : PoolState ι) : Prop :=
  ∃ o ∈ s.slabs.live, o.cache = sc ∧ o.addr = ptr ∧
    (∀ o', o' ∈ s'.slabs.live ↔ o' ∈ s.slabs.live ∧ o' ≠ o) ∧
    ∃ l p r, s.slabs.pools = l ++ p :: r ∧ p.base = o.pool ∧ p.cache = sc ∧ ptr ∉ p.slabs ∧
      s'.slabs.pools = l ++ { p with slabs := p.slabs ++ [ptr] } :: r ∧ s'.stack = s.stack

theorem slabCacheFree_goes {ptr : Nat} {s : PoolState ι} (h : PoolsWell C s) (ho : o ∈ s.slabs.live)
    (hcache : o.cache = sc) (haddr : o.addr = ptr) :
    ∃ s', slabCacheFree C sc ptr s = .ok s' ∧ PoolsWell C s' ∧ Returned sc ptr s s' := by
  subst hcache haddr
  obtain ⟨hslot, p, hp, hbase, hpcache, hfree⟩ := h.live o ho
  have hin := hslot.inside
  have hpos := C.slabSize_pos o.cache
  obtain ⟨l, r, hpools, hins⟩ := insertSlab_eq h hp (by omega) (show o.addr < p.base + 2 ^ C.bits by omega)
  have haddrs := List.inj_on_of_nodup_map h.addrs
  have hsame : (s.slabs.live.filter fun o' => ¬ (o'.cache = o.cache ∧ o'.addr = o.addr)) =
      s.slabs.live.filter fun o' => o'.addr ≠ o.addr := by
    refine List.filter_congr fun o' ho' => decide_eq_decide.mpr (not_congr ⟨And.right, fun heq => ?_⟩)
    rw [haddrs ho' ho heq]
    exact ⟨rfl, rfl⟩
  refine ⟨{ s with slabs := ⟨l ++ { p with slabs := p.slabs ++ [o.addr] } :: r,
    s.slabs.live.filter fun o' => o'.addr ≠ o.addr⟩ }, ?_, ?_, ?_⟩
  · rw [slabCacheFree, hins, hsame]
  · have hwell : SlabsWell C ⟨l ++ p :: r, s.slabs.live⟩ (heldPages s.stack) := hpools ▸ h
    exact hwell.giveBack ho hbase hpcache
  · refine ⟨o, ho, rfl, rfl, fun o' => ?_, l, p, r, hpools, hbase, hpcache, hfree, rfl, rfl⟩
    simp only [List.mem_filter, decide_eq_true_eq]
    exact and_congr_right fun ho' => not_congr ⟨fun heq => haddrs ho' ho heq, fun heq => heq ▸ rfl⟩

/-- **A step.**  Whatever the caches are asked for and the page allocators answer, the slabs stay well. -/
theorem poolStep_goes (i : Input ι) (s : PoolState ι) (h : PoolsWell C s) (hlegal : i.Legal C s) :
    Goes C (poolStep C i s) := by
  obtain ⟨slabs, stack⟩ := s
  cases i with
  | alloc sc => exact slabCacheAlloc_goes sc _ h
  | free sc ptr =>
    obtain ⟨o, ho, hcache, haddr⟩ := hlegal
    obtain ⟨s', hs', hwell, -⟩ := slabCacheFree_goes h ho hcache haddr
    exact ⟨s', hs', hwell⟩
  | virt mem =>
    match stack, h, hlegal with
    | ⟨sc, .virt⟩ :: stack, h, hlegal =>
      simp only [poolStep]
      by_cases hinv : mem = invalidAddr
      · rw [if_pos hinv]
        exact SlabsWell.deliver _ _ _ h
      · obtain ⟨halign, htop, hnew⟩ := hlegal.resolve_left hinv
        rw [if_neg hinv, if_neg (not_not.mpr halign)]
        exact ⟨_, rfl, SlabsWell.hold h halign htop hnew⟩
    | [], h, _ => exact ⟨_, rfl, h⟩
    | ⟨sc, .phys virt⟩ :: stack, h, _ => exact ⟨_, rfl, h⟩
    | ⟨sc, .node virt phys⟩ :: stack, h, _ => exact ⟨_, rfl, h⟩
    | ⟨sc, .undo⟩ :: stack, h, _ => exact ⟨_, rfl, h⟩
  | phys mem =>
    match stack, h, hlegal with
    | ⟨sc, .phys virt⟩ :: stack, h, hlegal =>
      simp only [poolStep]
      by_cases hinv : mem = invalidAddr
      · rw [if_pos hinv]
        exact ⟨_, rfl, SlabsWell.drop h⟩
      · rw [if_neg hinv, if_neg (not_not.mpr (hlegal.resolve_left hinv))]
        by_cases hms : sc = C.ms
        · obtain ⟨slab, s', hfill, hwell⟩ := SlabsWell.fill h sc mem
          rw [if_pos hms, hfill]
          exact hwell.deliver _ _ _
        · rw [if_neg hms]
          exact slabCacheAlloc_goes _ _ h
    | [], h, _ => exact ⟨_, rfl, h⟩
    | ⟨sc, .virt⟩ :: stack, h, _ => exact ⟨_, rfl, h⟩
    | ⟨sc, .node virt phys⟩ :: stack, h, _ => exact ⟨_, rfl, h⟩
    | ⟨sc, .undo⟩ :: stack, h, _ => exact ⟨_, rfl, h⟩
  | undone =>
    match stack, h with
    | ⟨sc, .undo⟩ :: stack, h => exact SlabsWell.deliver _ _ _ h
    | [], h => exact ⟨_, rfl, h⟩
    | ⟨sc, .virt⟩ :: stack, h => exact ⟨_, rfl, h⟩
    | ⟨sc, .phys virt⟩ :: stack, h => exact ⟨_, rfl, h⟩
    | ⟨sc, .node virt phys⟩ :: stack, h => exact ⟨_, rfl, h⟩

/-! ### Runs -/

/-- Every live object is inside the page of a pool of its cache, off the memsections at the beginning of
    the pools of `ms_cache`, and off every other live object. -/
structure Safe (C : Caches ι) (s : PoolState ι) : Prop where
  inside : ∀ o ∈ s.slabs.live, ∃ p ∈ s.slabs.pools, p.cache = o.cache ∧ p.base ≤ o.addr ∧
    o.addr + C.slabSize o.cache ≤ p.base + 2 ^ C.bits
  header : ∀ o ∈ s.slabs.live, ∀ p ∈ s.slabs.pools, p.cache = C.ms →
    p.base + C.slabSize C.ms ≤ o.addr ∨ o.addr + C.slabSize o.cache ≤ p.base
  disjoint : s.slabs.live.Pairwise fun o o' =>
    o.addr + C.slabSize o.cache ≤ o'.addr ∨ o'.addr + C.slabSize o'.cache ≤ o.addr

theorem PoolsWell.safe {s : PoolState ι} (h : PoolsWell C s) : Safe C s where
  inside o ho := by
    obtain ⟨hslot, p, hp, hbase, hcache, -⟩ := h.live o ho
    have hin := hslot.inside
    exact ⟨p, hp, hcache, by omega, by omega⟩
  header o ho p hp hms := by
    obtain ⟨hslot, q, hq, hbase, hcache, -⟩ := h.live o ho
    have hin := hslot.inside
    by_cases heq : p.base = q.base
    · obtain rfl := h.pool_eq hp hq heq
      have hheader := hin.2.2 (hcache.symm.trans hms)
      exact .inl (by omega)
    · have hapart := h.pages_apart (mem_pages hp) (mem_pages hq) heq
      have hfits := C.fits C.ms
      rw [if_pos rfl] at hfits
      omega
  disjoint := by
    have hne := List.pairwise_map.mp h.addrs
    refine hne.imp_of_mem fun {o o'} ho ho' hne => ?_
    obtain ⟨hslot, p, hp, hbase, hcache, -⟩ := h.live o ho
    obtain ⟨hslot', q, hq, hbase', hcache', -⟩ := h.live o' ho'
    by_cases heq : p.base = q.base
    · obtain rfl := h.pool_eq hp hq heq
      rw [← hcache, ← hbase] at hslot
      rw [← hcache', ← hbase'] at hslot'
      rw [← hcache, ← hcache']
      exact hslot.apart hslot' hne
    · have hapart := h.pages_apart (mem_pages hp) (mem_pages hq) heq
      have hin := hslot.inside
      have hin' := hslot'.inside
      omega

/-- No pools yet. -/
def poolsInit : PoolState ι := ⟨⟨[], []⟩, []⟩

theorem poolsWell_init : PoolsWell C (poolsInit : PoolState ι) :=
  ⟨.nil, fun _ hv => absurd hv List.not_mem_nil, fun _ hp => absurd hp List.not_mem_nil,
    fun _ hp => absurd hp List.not_mem_nil, fun _ ho => absurd ho List.not_mem_nil, .nil⟩

/-- What a step keeps up: the caches go on to a safe state, and a free gives the object back to the pool it
    came from. -/
def Keeps (C : Caches ι) (i : Input ι) (s : PoolState ι) : Prop :=
  ∃ s', poolStep C i s = .ok s' ∧ Safe C s' ∧ ∀ sc ptr, i = .free sc ptr → Returned sc ptr s s'

/-- **Slab cache safety.**  In every run of calls of any number of caches, with the page allocators calling
    back and answering as they like, every state that is reached is safe, and every free makes exactly
    the object available again in the pool it came from. -/
theorem pools_safe (C : Caches ι) (is : List (Input ι))
    (h : Along (poolStep C) (Input.Legal C) is poolsInit) :
    Along (poolStep C) (Keeps C) is poolsInit := by
  refine Along.of_inv (I := PoolsWell C) (fun i s hwell hlegal => ?_) (fun i s s' hwell hlegal hs => ?_) is
    poolsInit poolsWell_init h
  · obtain ⟨s', hs', hwell'⟩ := poolStep_goes i s hwell hlegal
    refine ⟨s', hs', hwell'.safe, fun sc ptr hi => ?_⟩
    subst hi
    obtain ⟨o, ho, hcache, haddr⟩ := hlegal
    obtain ⟨s'', hs'', -, hreturned⟩ := slabCacheFree_goes hwell ho hcache haddr
    obtain rfl : s'' = s' := Except.ok.inj (hs''.symm.trans hs')
    exact hreturned
  · obtain ⟨s'', hs'', hwell''⟩ := poolStep_goes i s hwell hlegal
    obtain rfl : s'' = s' := Except.ok.inj (hs''.symm.trans hs)
    exact hwell''

end

/-! ### The caches of the kernel -/

section

open Kernel Cover

/-- A page that `sys$fpage_alloc_internal` takes off the free memory can be made a pool, as long as the
    caches have no page that is free. -/
theorem PageTaken.legal [DecidableEq ι] {C : Caches ι} {s s' : Sys} {mem : Nat}
    (h : PageTaken C.bits .vm s s' mem) {t : PoolState ι} (ht : ∀ v ∈ t.pages, own (s.side .vm) v = 0) :
    (Input.virt mem : Input ι).Legal C t := by
  have hpage : 0 < 2 ^ C.bits := Nat.two_pow_pos _
  have hfits := h.whole.fits
  refine .inr ⟨h.whole.base_aligned, by omega, fun hin => ?_⟩
  have howned := h.owned mem
  rw [ht mem hin, span_eq_one.mpr ⟨le_refl _, by omega⟩] at howned
  omega

/-- No page of a pool is free. -/
theorem Linked.pool_not_free {bits : Nat} {s : Sys} (h : Linked bits s) (w : Side) {p : Pool}
    (hp : p ∈ s.pools) : own (s.side w) (p.page w) = 0 := by
  have hpage : 0 < 2 ^ bits := Nat.two_pow_pos _
  have honce := h.once w (p.page w)
  have hcover : span (p.page w) (2 ^ bits) (p.page w) ≤ poolCover bits w s.pools (p.page w) :=
    le_weight_of_mem (w := fun q : Pool => span (q.page w) (2 ^ bits) (p.page w)) hp
  rw [span_eq_one.mpr ⟨le_refl _, by omega⟩] at hcover
  rw [account] at honce
  omega

/-- `fp_cache`, `ms_cache` and `bt_cache` with pages of 4 KiB. -/
def kernelCaches : Caches Cache where
  bits := 12
  ms := .ms
  slabSize := Cache.slabSize
  bits_lt := by decide
  slabSize_pos sc := by cases sc <;> decide
  fits sc := by cases sc <;> decide

/-- The first request for a node of a free list makes a pool of `ms_cache` too; the next page for a pool
    comes off a free list, whose node is given back meanwhile. -/
def firstRequests : List (Input Cache) :=
  [.alloc .fp, .virt 0x40000000, .phys 0x100000, .virt 0x40001000, .phys 0x101000, .alloc .fp,
    .alloc .bt, .free .fp 0x40000000, .virt 0x40002000, .phys invalidAddr, .undone, .alloc .ms,
    .alloc .bt, .virt 0x40002000, .phys 0x102000]

theorem firstRequests_safe :
    (runs (poolStep kernelCaches) firstRequests poolsInit).map (fun s => s.slabs.live.map (·.addr)) =
        .ok [0x40002000, 0x40001120, 0x400010c0, 0x40000018, 0x40001060] ∧
      Along (poolStep kernelCaches) (Keeps kernelCaches) firstRequests poolsInit :=
  ⟨by decide +kernel, pools_safe kernelCaches firstRequests (by decide +kernel)⟩

end

end FreeVMS.Pools
