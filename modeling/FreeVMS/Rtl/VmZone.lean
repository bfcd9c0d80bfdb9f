import FreeVMS.Alloc.L4
import FreeVMS.Lib.Run
import FreeVMS.Lib.Tiling
import Mathlib.Logic.Function.Basic

/-!
# The zones of `lib$get_vm`

`libvm.c`: zones of memory with a free list each.  The free list of a zone is a chain of headers
`struct _gen` that starts in its field `pool`; the first request of a zone gets a pool from
`lib$get_vm_page`, and requests are cut from the low end of the first block that is big enough.  The
default zone has the number 0, the created ones the numbers from 1 on, and all have the default
procedures.

Address 0 is `NULL`, and following it is a fault.  Sizes are of type `int`, so a request is cut to 32
bits on its way to `lib$allocate`.  The header of a block is kept by the address of the block; the
poison, which nothing reads, is left out.  `malloc` is outside: a request says what it answers, if
it is asked.
-/

namespace FreeVMS.Rtl.VmZone

open Alloc Tiling

inductive Fault where
  /-- a null pointer is followed -/
  | null
  /-- `free` of something that `malloc` did not return -/
  | badFree
  /-- out of fuel -/
  | diverge
deriving DecidableEq, Repr

/-- The zones and the headers in memory, and two records that the code does not keep: what
    `lib$get_vm_page` returned for each zone, and the blocks that are live in each zone. -/
structure State where
  pool : Nat → Nat
  flink : Nat → Nat
  wSize : Nat → Int
  zones : Nat
  pages : List (Nat × Nat)
  live : List (Nat × Tile)

/-- What holds a link of the free list: `vz->pool`, or the header of a block. -/
inductive Cell where
  | pool (z : Nat)
  | block (a : Nat)
deriving DecidableEq, Repr

namespace State

/-- `cur->gen$l_flink` -/
def link (s : State) : Cell → Nat
  | .pool z => s.pool z
  | .block a => s.flink a

def setLink (s : State) (c : Cell) (v : Nat) : State :=
  match c with
  | .pool z => { s with pool := Function.update s.pool z v }
  | .block a => { s with flink := Function.update s.flink a v }

def setSize (s : State) (a : Nat) (k : Int) : State :=
  { s with wSize := Function.update s.wSize a k }

end State

/-- A `long` as an `int`. -/
def toInt (n : Int) : Int := n.bmod (2 ^ 32)

/-- `(unsigned long)a + k` for an `int k`. -/
def addrAdd (a : Nat) (k : Int) : Nat := ((a + k) % (wordSize : Int)).toNat

/-- The size that `lib$get_vm` asks `lib$get_vm_page` for, in pages. -/
def pageCount : Nat := 20480

/-- What `lib$get_vm_page` asks `malloc` for. -/
def pageBytes : Nat := pageCount * 512

/-- What `lib$get_vm` writes into the header of a new pool. -/
def poolBytes : Nat := pageCount * 4096

/-! ### Free lists -/

/-- `lib$allocate` where `next` has been found: the block and the new state. -/
def cutBlock (s : State) (cur : Cell) (next : Nat) (requestsize : Int) : Except Fault (State × Nat) :=
  let nextnext := s.flink next
  if requestsize < s.wSize next then
    let newsize := toInt (s.wSize next - requestsize)
    let rest := addrAdd next requestsize
    if rest = 0 then .error .null
    else
      .ok (((s.setLink (.block rest) nextnext).setSize rest newsize).setLink cur rest, next)
  else .ok (s.setLink cur nextnext, next)

/-- `lib$allocate`; the block is 0 when the status is `SS$_INSFMEM`. -/
def allocate (requestsize : Int) : Nat → State → Cell → Except Fault (State × Nat)
  | 0, _, _ => .error .diverge
  | fuel + 1, s, cur =>
      if s.link cur = 0 then .ok (s, 0)
      else if requestsize ≤ s.wSize (s.link cur) then cutBlock s cur (s.link cur) requestsize
      else allocate requestsize fuel s (.block (s.link cur))

/-- The loop of `lib$deallocate`. -/
def findLower (s : State) (returnblock : Nat) : Nat → Cell → Except Fault Cell
  | 0, _ => .error .diverge
  | fuel + 1, cur =>
      if s.link cur ≠ 0 ∧ s.link cur < returnblock then
        findLower s returnblock fuel (.block (s.link cur))
      else .ok cur

/-- `lib$deallocate` after its loop. -/
def joinBlock (s : State) (cur : Cell) (middle : Nat) (size : Int) : Except Fault State :=
  let next := s.link cur
  if next = 0 then .error .null
  else
    let nextnext := s.flink next
    let s := (s.setSize middle size).setLink (.block middle) nextnext
    if nextnext ≠ 0 ∧ addrAdd next (s.wSize next) = middle ∧
        addrAdd middle (s.wSize middle) = nextnext then
      .ok ((s.setSize next (toInt (s.wSize next + (s.wSize middle + s.wSize nextnext)))).setLink
        (.block next) (s.flink nextnext))
    else if addrAdd next (s.wSize next) = middle then
      .ok ((s.setSize next (toInt (s.wSize next + s.wSize middle))).setLink (.block next) nextnext)
    else if nextnext ≠ 0 ∧ addrAdd middle (s.wSize middle) = nextnext then
      .ok ((s.setSize middle (toInt (s.wSize middle + s.wSize nextnext))).setLink (.block next) middle)
    else .ok ((s.setLink (.block next) middle).setLink (.block middle) nextnext)

/-- `lib$deallocate` -/
def deallocate (fuel : Nat) (returnblock : Nat) (z : Nat) (size : Int) (s : State) :
    Except Fault State := do
  let cur ← findLower s returnblock fuel (.pool z)
  joinBlock s cur returnblock size

/-! ### The routines -/

/-- The first request of a zone: `lib$get_vm_page`, and the header of the pool. -/
def newPool (s : State) (z answer : Nat) : Except Fault State :=
  if answer = 0 then .error .null
  else
    .ok { s with
      pool := Function.update s.pool z answer
      flink := Function.update s.flink answer 0
      wSize := Function.update s.wSize answer poolBytes
      pages := (z, answer) :: s.pages }

/-- `if (vz->pool == 0)` -/
def withPool (s : State) (z answer : Nat) : Except Fault State :=
  if s.pool z = 0 then newPool s z answer else .ok s

/-- `lib$get_vm`: the state and `*base_address`.  The status of `lib$allocate` is dropped, and the
    status is `SS$_NORMAL`. -/
def getVm (fuel : Nat) (z n answer : Nat) (s : State) : Except Fault (State × Nat) := do
  let s ← withPool s z answer
  let (s, block) ← allocate (toInt n) fuel s (.pool z)
  return ({ s with live := if block = 0 then s.live else (z, block, n) :: s.live }, block)

/-- `lib$free_vm` -/
def freeVm (fuel : Nat) (z n block : Nat) (s : State) : Except Fault State := do
  let s ← deallocate fuel block z (toInt n) s
  return { s with live := s.live.erase (z, block, n) }

/-- `lib$create_vm_zone`: the new zone is a copy of the default zone, its pool too. -/
def createVmZone (s : State) : State :=
  { s with pool := Function.update s.pool (s.zones + 1) (s.pool 0), zones := s.zones + 1 }

/-- `free(vz->pool)` -/
def freePool (s : State) (z : Nat) : Except Fault State :=
  if s.pool z = 0 then .ok s
  else if ∃ p ∈ s.pages, p.2 = s.pool z then
    .ok { s with pages := s.pages.filter fun p => p.2 ≠ s.pool z }
  else .error .badFree

/-- `lib$reset_vm_zone` -/
def resetVmZone (z : Nat) (s : State) : Except Fault State := do
  let s ← freePool s z
  return { s with
    pool := Function.update s.pool z 0
    live := s.live.filter fun b => b.1 ≠ z }

/-- A call; a request says what `malloc` answers, if it is asked. -/
inductive Op where
  | create
  | get (z n answer : Nat)
  | free (z n block : Nat)
  | reset (z : Nat)
deriving DecidableEq, Repr

def step (fuel : Nat) (op : Op) (s : State) : Except Fault State :=
  match op with
  | .create => .ok (createVmZone s)
  | .get z n answer => (getVm fuel z n answer s).map Prod.fst
  | .free z n block => freeVm fuel z n block s
  | .reset z => resetVmZone z s

/-- No zone but the default one, which has no pool. -/
def State.init (flink : Nat → Nat) (wSize : Nat → Int) : State :=
  { pool := fun _ => 0, flink := flink, wSize := wSize, zones := 0, pages := [], live := [] }

end FreeVMS.Rtl.VmZone
