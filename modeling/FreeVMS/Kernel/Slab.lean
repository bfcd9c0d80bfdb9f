import FreeVMS.Alloc.Code
import FreeVMS.BTree.Table

/-!
# The slab caches and the two allocators

`sys_slab.c`: objects of one size come from a slab cache; when all its pools are used up,
`sys$memsection_create_cache` makes a pool out of one page of virtual and one page of physical
memory, taken with `sys$fpage_alloc_internal` from `vm_alloc` and `pm_alloc`.  The nodes of
the two allocators' free lists are objects of `fp_cache`, so an allocator that asks for a node
may be called back in the middle of its own work.

The slabs of a cache are counted; which slab is handed out makes no difference here.  A pool
is known by its two pages.
-/

namespace FreeVMS.Kernel

open Trace Cover Alloc BTree

/-- `vm_alloc` and `pm_alloc`. -/
inductive Side where
  | vm
  | pm
deriving DecidableEq, Repr

def Side.other : Side → Side
  | .vm => .pm
  | .pm => .vm

/-- `fp_cache`, `ms_cache` and `bt_cache`. -/
inductive Cache where
  | fp
  | ms
  | bt
deriving DecidableEq, Repr

/-- `sizeof(struct fpage_list)`, `sizeof(struct memsection_node)`, `sizeof(struct sBTPage)`. -/
def Cache.slabSize : Cache → Nat
  | .fp => 24
  | .ms => 96
  | .bt => 4080

/-- The memsection of a pool: its page of virtual and its page of physical memory. -/
structure Pool where
  cache : Cache
  virt : Nat
  phys : Nat
deriving DecidableEq, Repr

def Pool.page (p : Pool) : Side → Nat
  | .vm => p.virt
  | .pm => p.phys

/-- The object table: its tree, `vms$pd_initialized`, and the memsections that
    `sys$pd_create_memsection` has put on a list, that of a protection domain or (`none`)
    `internal_memsections`. -/
structure Objects where
  tree : BTreeS
  initialized : Bool
  sections : List (Option Nat × Memsection)

/-- The allocators, the free slabs of each cache, the pools in the order of their creation, and
    the object table. -/
structure Sys where
  vm : FpageAlloc
  pm : FpageAlloc
  free : Cache → Nat
  pools : List Pool
  objs : Objects

namespace Sys

def side (s : Sys) : Side → FpageAlloc
  | .vm => s.vm
  | .pm => s.pm

def setSide (s : Sys) : Side → FpageAlloc → Sys
  | .vm, a => { s with vm := a }
  | .pm, a => { s with pm := a }

/-- One more free slab. -/
def credit (s : Sys) (c : Cache) : Sys :=
  { s with free := Function.update s.free c (s.free c + 1) }

/-- One free slab less. -/
def debit (s : Sys) (c : Cache) : Sys :=
  { s with free := Function.update s.free c (s.free c - 1) }

/-- A new pool with `n` slabs. -/
def addPool (s : Sys) (p : Pool) (n : Nat) : Sys :=
  { s with
    pools := s.pools ++ [p]
    free := Function.update s.free p.cache (s.free p.cache + n) }

/-- How many pages of each allocator a request for a slab takes. -/
def need (s : Sys) (c : Cache) : Nat :=
  if 0 < s.free c then 0
  else if c = .ms then 1
  else if 0 < s.free .ms then 1 else 2

@[simp] theorem side_setSide (s : Sys) (w : Side) (a : FpageAlloc) : (s.setSide w a).side w = a := by
  cases w <;> rfl

@[simp] theorem side_setSide_other (s : Sys) (w : Side) (a : FpageAlloc) :
    (s.setSide w a).side w.other = s.side w.other := by cases w <;> rfl

@[simp] theorem setSide_free (s : Sys) (w : Side) (a : FpageAlloc) : (s.setSide w a).free = s.free := by
  cases w <;> rfl

@[simp] theorem setSide_pools (s : Sys) (w : Side) (a : FpageAlloc) :
    (s.setSide w a).pools = s.pools := by cases w <;> rfl

@[simp] theorem setSide_objs (s : Sys) (w : Side) (a : FpageAlloc) : (s.setSide w a).objs = s.objs := by
  cases w <;> rfl

@[simp] theorem side_credit (s : Sys) (c : Cache) (w : Side) : (s.credit c).side w = s.side w := by
  cases w <;> rfl

@[simp] theorem side_debit (s : Sys) (c : Cache) (w : Side) : (s.debit c).side w = s.side w := by
  cases w <;> rfl

@[simp] theorem side_addPool (s : Sys) (p : Pool) (n : Nat) (w : Side) :
    (s.addPool p n).side w = s.side w := by cases w <;> rfl

@[simp] theorem credit_free_self (s : Sys) (c : Cache) : (s.credit c).free c = s.free c + 1 :=
  Function.update_self _ _ _

theorem credit_free_of_ne (s : Sys) {c d : Cache} (h : d ≠ c) : (s.credit c).free d = s.free d :=
  Function.update_of_ne h _ _

@[simp] theorem debit_free_self (s : Sys) (c : Cache) : (s.debit c).free c = s.free c - 1 :=
  Function.update_self _ _ _

end Sys

/-- The slabs of a new pool.  A pool of `ms_cache` begins with its own memsection. -/
def slabCount (bits : Nat) (c : Cache) : Nat :=
  if c = .ms then (2 ^ bits - c.slabSize) / c.slabSize else 2 ^ bits / c.slabSize

/-- Marks that `sys$fpage_clear_internal` leaves: the request for a node takes all that is left
    of the range being cleared; a flexpage is filed out of the range `[lo, hi]`. -/
inductive Event where
  | starved (w : Side)
  | filed (w : Side) (lo hi : Nat) (fpage : Fpage)

section Code

variable (bits : Nat)

/-- One of the allocators; `node` asks `fp_cache` for a node. -/
def sysEnv (node : Prog Event Sys Fault Bool) (w : Side) : Env Event Sys where
  get s := s.side w
  set a s := s.setSide w a
  slabAlloc := node
  slabFree := update fun s => s.credit .fp
  clearing := do
    let s ← read
    onlyIf ((s.side w).end_ + 1 ≤ (s.side w).base + s.need .fp * 2 ^ bits) (emit (.starved w))
  filed lo hi fpage := emit (.filed w lo hi fpage)

/-- `sys$memsection_create_cache`; the result is the number of slabs of the new pool, or nothing
    for `NULL`.  `alloc` is `sys$slab_cache_alloc`. -/
def memsectionCreateCache (alloc : Cache → Prog Event Sys Fault Bool) (sc : Cache) :
    Prog Event Sys Fault (Option Nat) := do
  let virt ← fpageAllocInternal (sysEnv bits (alloc .fp) .vm) (2 ^ bits)
  if virt = invalidAddr then return none
  else
    onlyIf (virt % 2 ^ bits ≠ 0) (raise .panic)
    let phys ← fpageAllocInternal (sysEnv bits (alloc .fp) .pm) (2 ^ bits)
    if phys = invalidAddr then
      fpageFreeInternal (sysEnv bits (alloc .fp) .vm) bits virt (wordAdd virt (2 ^ bits - 1))
      return none
    else
      onlyIf (phys % 2 ^ bits ≠ 0) (raise .panic)
      if sc = .ms then
        -- the new memsection goes into the pool itself
        update fun s => s.addPool ⟨sc, virt, phys⟩ (slabCount bits sc)
        return some (slabCount bits sc)
      else
        let node ← alloc .ms
        if node then
          update fun s => s.addPool ⟨sc, virt, phys⟩ (slabCount bits sc)
          return some (slabCount bits sc)
        else
          fpageFreeChunk (sysEnv bits (alloc .fp) .vm) bits virt (wordAdd virt (2 ^ bits - 1))
          fpageFreeChunk (sysEnv bits (alloc .fp) .pm) bits phys (wordAdd phys (2 ^ bits - 1))
          return none

/-- `sys$slab_cache_alloc`, which can call itself through `sys$memsection_create_cache`; `depth`
    bounds how deep. -/
def slabCacheAlloc : (depth : Nat) → Cache → Prog Event Sys Fault Bool
  | 0, _ => raise .diverge
  | depth + 1, sc => do
      let s ← read
      if 0 < s.free sc then
        update fun s => s.debit sc
        return true
      else
        match ← memsectionCreateCache bits (slabCacheAlloc depth) sc with
        | none => return false
        | some 0 => raise .outOfBounds
        | some (_ + 1) =>
            update fun s => s.debit sc
            return true

/-- A request of `fp_cache` leads to one of `ms_cache`, and that one to no other. -/
def reentryDepth : Nat := 3

/-- The allocators as they are linked with the slab caches. -/
def linkedEnv (w : Side) : Env Event Sys := sysEnv bits (slabCacheAlloc bits reentryDepth .fp) w

end Code

end FreeVMS.Kernel
