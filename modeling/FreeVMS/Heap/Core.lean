import FreeVMS.Alloc.Code
import FreeVMS.Lib.LinkRing
import FreeVMS.Lib.Run

/-!
# The kernel heap

`sys_core.c`: the storage allocator of Kernighan and Ritchie.  The free blocks are a ring of
headers in the order of their addresses, which runs through the header `base` outside of the
arena.  A request is searched from `freep` on and taken from the end of a block; when the
search comes round, `sys$morecore` takes pages from the rest of the arena and frees them.

Headers have 16 bytes, and the size of a block is a number of headers.  The loops of the source
are followed for as many rounds as there is fuel.  The lock around the calls is left out.
-/

namespace FreeVMS.Heap

open Alloc

/-- Where the heap is: the arena from `lo` up to `top` (both from `sys$alloc_init`), the address of
    `base`, and the logarithm of the size of a page.  `base` is not in the arena or next to it, and
    the arena is not at the end of the address space. -/
structure Arena where
  bits : Nat
  lo : Nat
  top : Nat
  base : Nat
  page : PageBits bits
  low : 0 < lo
  order : lo ≤ top
  high : top + 2 ^ 36 ≤ wordSize
  outside : (0 < base ∧ base < lo) ∨ (top < base ∧ base < wordSize)

/-- `vms$bss`, `freep` (0 is `NULL`), and the fields `s.ptr` and `s.size` of the header at each
    address. -/
structure Memory where
  bss : Nat
  freep : Nat
  ptr : Nat → Nat
  size : Nat → Nat

/-- `p + n` for a pointer to a header. -/
def hdr (p n : Nat) : Nat := wordAdd p (16 * n)

/-- What `sys$alloc` has found when its loop is left. -/
inductive Scan where
  /-- `p` after `prevp` is big enough -/
  | found (prevp p : Nat)
  /-- `p == freep` -/
  | wrapped

section Code

variable (A : Arena)

/-- The loop of `sys$free`. -/
def freeLoop (s : Memory) (bp : Nat) : Nat → Nat → Except Fault Nat
  | 0, _ => .error .diverge
  | fuel + 1, p =>
      if bp > p ∧ bp < s.ptr p then .ok p
      else if p ≥ s.ptr p ∧ (bp > p ∨ bp < s.ptr p) then .ok p
      else freeLoop s bp fuel (s.ptr p)

/-- `sys$free` from the first `if` after its loop on: join to the upper neighbour. -/
def joinUpper (s : Memory) (bp p : Nat) : Memory :=
  if hdr bp (s.size bp) = s.ptr p then
    { s with
      size := Function.update s.size bp (wordAdd (s.size bp) (s.size (s.ptr p)))
      ptr := Function.update s.ptr bp (s.ptr (s.ptr p)) }
  else { s with ptr := Function.update s.ptr bp (s.ptr p) }

/-- The second `if`: join to the lower neighbour. -/
def joinLower (s : Memory) (bp p : Nat) : Memory :=
  if hdr p (s.size p) = bp then
    { s with
      size := Function.update s.size p (wordAdd (s.size p) (s.size bp))
      ptr := Function.update s.ptr p (s.ptr bp) }
  else { s with ptr := Function.update s.ptr p bp }

/-- `sys$free`. -/
def sysFree (fuel ap : Nat) (s : Memory) : Except Fault Memory :=
  if ap = 0 then .ok s
  else
    let bp := wordSub ap 16
    match freeLoop s bp fuel s.freep with
    | .error e => .error e
    | .ok p => .ok { joinLower (joinUpper s bp p) bp p with freep := p }

/-- `vms$min_pagesize() / sizeof(Header)`. -/
def Arena.perPage : Nat := 2 ^ A.bits / 16

/-- `round_up(nu, vms$min_pagesize() / sizeof(Header))`, stored into an `unsigned int`. -/
def roundUnits (nu : Nat) : Nat := (nu + (A.perPage - 1)) / A.perPage * A.perPage % 2 ^ 32

/-- `sys$morecore`; `back` says whether `sys$back_mem` succeeds, and the result 0 is `NULL`. -/
def sysMorecore (fuel : Nat) (back : Bool) (nu : Nat) (s : Memory) : Except Fault (Nat × Memory) :=
  let nu := roundUnits A nu
  if wordAdd s.bss (nu * 16) > A.top then .ok (0, s)
  else if back = false then .ok (0, s)
  else
    let up := s.bss
    match sysFree fuel (hdr up 1)
        { s with bss := wordAdd s.bss (nu * 16), size := Function.update s.size up nu } with
    | .error e => .error e
    | .ok s' => .ok (s'.freep, s')

/-- The loop of `sys$alloc` until it is left or `sys$morecore` is called. -/
def allocScan (s : Memory) (nunits : Nat) : Nat → Nat → Nat → Except Fault Scan
  | 0, _, _ => .error .diverge
  | fuel + 1, prevp, p =>
      if s.size p ≥ nunits then .ok (.found prevp p)
      else if p = s.freep then .ok .wrapped
      else allocScan s nunits fuel p (s.ptr p)

/-- `sys$alloc` with a block that is big enough: the address that is returned, and the heap. -/
def takeBlock (s : Memory) (nunits prevp p : Nat) : Nat × Memory :=
  if s.size p = nunits then
    (hdr p 1, { s with ptr := Function.update s.ptr prevp (s.ptr p), freep := prevp })
  else
    let rest := s.size p - nunits
    let q := hdr p rest
    (hdr q 1, { s with
      size := Function.update (Function.update s.size p rest) q nunits
      freep := prevp })

/-- The loop of `sys$alloc` after `prevp`; `back` says how the calls of `sys$back_mem` end, the next
    of which has the number `k`. -/
def allocLoop (fuel : Nat) (back : Nat → Bool) (nunits : Nat) :
    Nat → Nat → Nat → Memory → Except Fault (Nat × Memory)
  | 0, _, _, _ => .error .diverge
  | turns + 1, k, prevp, s =>
      match allocScan s nunits fuel prevp (s.ptr prevp) with
      | .error e => .error e
      | .ok (.found prevp p) => .ok (takeBlock s nunits prevp p)
      | .ok .wrapped =>
          match sysMorecore A fuel (back k) nunits s with
          | .error e => .error e
          | .ok (0, s') => .ok (0, s')
          | .ok (p + 1, s') => allocLoop fuel back nunits turns (k + 1) (p + 1) s'

/-- The number of headers for a request, with its own one: an `unsigned int`. -/
def unitsFor (nbytes : Nat) : Nat := (wordAdd nbytes 15 / 16 + 1) % 2 ^ 32

/-- The free list is made at the first call. -/
def startList (s : Memory) : Memory :=
  if s.freep = 0 then
    { s with
      freep := A.base
      ptr := Function.update s.ptr A.base A.base
      size := Function.update s.size A.base 0 }
  else s

/-- `sys$alloc`. -/
def sysAlloc (fuel : Nat) (back : Nat → Bool) (nbytes : Nat) (s : Memory) : Except Fault (Nat × Memory) :=
  let s := startList A s
  allocLoop A fuel back (unitsFor nbytes) fuel 0 s.freep s

end Code

end FreeVMS.Heap
