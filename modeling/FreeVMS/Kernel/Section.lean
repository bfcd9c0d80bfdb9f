import FreeVMS.Kernel.Slab
import FreeVMS.BTree.Status

/-!
# Creating a memsection

`sys$pd_create_memsection` and the four setup functions of `sys_objtables.c`, on the
allocators as they are linked with the slab caches.  Each setup function takes virtual memory,
an entry of the object table and physical memory in an order of its own, and gives back what
it has taken when a later step fails.

The mapping of the memory (`sys$memsection_back`) changes none of this and is left out.
-/

namespace FreeVMS.Kernel.Sections

open Trace Alloc BTree

/-- `VMS$MEM_NORMAL` and the other flags. -/
def memNormal : Nat := 0x1
def memFixed : Nat := 0x2
def memUtcb : Nat := 0x4
def memUser : Nat := 0x8
def memInternal : Nat := 0x10

/-- `flags & flag`. -/
def has (flags flag : Nat) : Bool := flags &&& flag != 0

/-- The arguments of `sys$pd_create_memsection`. -/
structure Args where
  self : Nat
  size : Nat
  base : Nat
  flags : Nat
  pagesize : Nat

/-- What matters of the slabs that the caches hand out during the call: where the memsection is,
    and the padding bytes of the pages of the tree. -/
structure Slabs where
  ms : Nat
  pad : Nat → Nat

/-- Pages for the tree; the request with the number `refused` is turned down. -/
def pagesBut (pad : Nat → Nat) (refused : Option Nat) : PagePool where
  grant i := if refused = some i then none else some (pad i)
  asked := 0

section Code

variable (bits order : Nat)

/-- Ask for `n` pages, up to the first request that is turned down; the result is its number. -/
def askPages : Nat → Nat → Prog Event Sys Fault (Option Nat)
  | 0, _ => return none
  | n + 1, i => do
      let page ← slabCacheAlloc bits reentryDepth .bt
      if page then askPages n (i + 1) else return some i

/-- `objtable_insert`.  After a request for a page that is turned down, `ObjBTIns` makes no
    other. -/
def objtableInsert (pad : Nat → Nat) (memsection : Memsection) : Prog Event Sys Fault Int := do
  let s ← read
  if s.objs.initialized then
    match objBTIns order s.objs.tree memsection .null (pagesBut pad none) with
    | none => raise .outOfBounds
    | some out => do
        let refused ← askPages bits out.pool.asked 0
        match insert order s.objs.tree memsection (pagesBut pad refused) with
        | none => raise .outOfBounds
        | some (r, t, _) => do
            update fun s => { s with objs := { s.objs with tree := t } }
            return r
  else return 0

/-- `objtable_setup`; the result is the return value and the memsection as it was filled in.  The
    list of a memsection that is not backed is empty. -/
def objtableSetup (slabs : Slabs) (size flags pagesize : Nat) :
    Prog Event Sys Fault (Int × Memsection) := do
  onlyIf (has flags memNormal = false) (raise .panic)
  let base ← fpageAllocChunk (linkedEnv bits .vm) bits size
  if base = invalidAddr then return (-1, ⟨slabs.ms, base, 0⟩)
  else
    let ms : Memsection := ⟨slabs.ms, base, wordAdd base (wordSub size 1)⟩
    let list ← (if has flags memUser then pure []
      else fpageAllocList (linkedEnv bits .pm) bits ms.base ms.end_ pagesize)
    if has flags memUser = false ∧ list = [] then
      fpageFreeChunk (linkedEnv bits .vm) bits ms.base ms.end_
      return (-2, ms)
    else
      let r ← objtableInsert bits order slabs.pad ms
      if r ≠ 0 then
        fpageFreeChunk (linkedEnv bits .vm) bits ms.base ms.end_
        fpageFreeList (linkedEnv bits .pm) bits list
        return (r, ms)
      else return (r, ms)

/-- `objtable_setup_fixed`. -/
def objtableSetupFixed (slabs : Slabs) (size base flags pagesize : Nat) :
    Prog Event Sys Fault (Int × Memsection) := do
  onlyIf (has flags memFixed = false) (raise .panic)
  let ms : Memsection := ⟨slabs.ms, base, wordAdd base (wordSub size 1)⟩
  let r ← objtableInsert bits order slabs.pad ms
  if r ≠ 0 then return (r, ms)
  else
    fpageRemoveChunk (linkedEnv bits .vm) bits base (wordSub (wordAdd base size) 1)
    if has flags memUser then return (r, ms)
    else
      let list ← fpageAllocList (linkedEnv bits .pm) bits ms.base ms.end_ pagesize
      if list = [] then
        -- the object stays in the table
        fpageFreeChunk (linkedEnv bits .vm) bits ms.base ms.end_
        return (-1, ms)
      else return (r, ms)

/-- `objtable_setup_utcb`. -/
def objtableSetupUtcb (slabs : Slabs) (size flags : Nat) : Prog Event Sys Fault (Int × Memsection) := do
  onlyIf (has flags memUtcb = false) (raise .panic)
  let base ← fpageAllocChunk (linkedEnv bits .vm) bits size
  if base = invalidAddr then return (-1, ⟨slabs.ms, base, 0⟩)
  else
    let ms : Memsection := ⟨slabs.ms, base, wordAdd base (wordSub size 1)⟩
    let r ← objtableInsert bits order slabs.pad ms
    if r ≠ 0 then
      fpageFreeChunk (linkedEnv bits .vm) bits ms.base ms.end_
      return (r, ms)
    else return (r, ms)

/-- `objtable_setup_internal`. -/
def objtableSetupInternal (slabs : Slabs) (size base flags : Nat) :
    Prog Event Sys Fault (Int × Memsection) := do
  onlyIf (has flags memInternal = false) (raise .panic)
  let ms : Memsection := ⟨slabs.ms, base, wordAdd base (wordSub size 1)⟩
  let r ← objtableInsert bits order slabs.pad ms
  return (r, ms)

/-- The setup function that the flags ask for. -/
def setup (a : Args) (slabs : Slabs) : Prog Event Sys Fault (Int × Memsection) :=
  if has a.flags memNormal then objtableSetup bits order slabs a.size a.flags a.pagesize
  else if has a.flags memFixed then
    objtableSetupFixed bits order slabs a.size a.base a.flags a.pagesize
  else if has a.flags memUtcb then objtableSetupUtcb bits order slabs a.size a.flags
  else if has a.flags memInternal then objtableSetupInternal bits order slabs a.size a.base a.flags
  else return (-1, ⟨slabs.ms, 0, 0⟩)

/-- `sys$pd_create_memsection`; nothing for `NULL`. -/
def pdCreateMemsection (a : Args) (slabs : Slabs) : Prog Event Sys Fault (Option Memsection) := do
  let s ← read
  let list := if s.objs.initialized then some a.self else none
  let node ← slabCacheAlloc bits reentryDepth .ms
  if node then
    let r ← setup bits order a slabs
    if r.1 ≠ 0 then
      update fun s => s.credit .ms
      return none
    else
      update fun s => { s with objs := { s.objs with sections := s.objs.sections ++ [(list, r.2)] } }
      return some r.2
  else return none

end Code

end FreeVMS.Kernel.Sections
