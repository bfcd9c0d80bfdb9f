import FreeVMS.Alloc.L4
import FreeVMS.Lib.Trace
import FreeVMS.Lib.Cover
import Mathlib.Logic.Function.Basic

/-!
# The fpage allocator

The functions of `sys_alloc.c` on one `struct fpage_alloc`.  Free memory is kept as
flexpages in one list for each order, and as one `internal` range that is handed out page
by page.

The nodes of the lists come from a slab cache that the functions call back
(`sys$slab_cache_alloc(&fp_cache)`, `sys$slab_cache_free`).  What such a call does is left
open: the functions are written over an environment that says where the allocator sits in
a larger state and what a request for a node does to that state.  A node is represented by
the flexpage it holds.

A fault is a `PANIC`, an access outside `flist[]`, or a loop that does not end.
-/

namespace FreeVMS.Alloc

open Trace Cover

/-- `MAX_FPAGE_ORDER`. -/
def maxFpageOrder : Nat := 64

/-- `struct fpage_alloc`. -/
structure FpageAlloc where
  flist : Nat → List Fpage
  base : Nat
  end_ : Nat
  active : Bool

inductive Fault where
  | panic
  | outOfBounds
  | diverge
deriving DecidableEq, Repr

/-- Where an allocator sits and how it gets its nodes.  `clearing` and `filed` do nothing in
    the source; they mark the places in `sys$fpage_clear_internal` where a node is asked for
    and where a flexpage is filed out of the range `[lo, hi]`. -/
structure Env (ε σ : Type) where
  get : σ → FpageAlloc
  set : FpageAlloc → σ → σ
  slabAlloc : Prog ε σ Fault Bool
  slabFree : Prog ε σ Fault Unit
  clearing : Prog ε σ Fault Unit
  filed : (lo hi : Nat) → Fpage → Prog ε σ Fault Unit

section Code

variable {ε σ : Type} (E : Env ε σ) (bits : Nat)

/-- The allocator as it is now. -/
def Env.alloc : Prog ε σ Fault FpageAlloc := do
  let s ← read
  return E.get s

/-- Change the allocator. -/
def Env.modify (f : FpageAlloc → FpageAlloc) : Prog ε σ Fault Unit :=
  update fun s => E.set (f (E.get s)) s

/-- `TAILQ_INSERT_TAIL(&alloc->flist[order], ..)`. -/
def insertTail (order : Int) (fpage : Fpage) : Prog ε σ Fault Unit :=
  if 0 ≤ order ∧ order ≤ maxFpageOrder then
    E.modify fun a =>
      { a with flist := Function.update a.flist order.toNat (a.flist order.toNat ++ [fpage]) }
  else raise .outOfBounds

/-- The loop of `sys$fpage_clear_internal`, which returns early when there is no node. -/
def clearLoop : Nat → Prog ε σ Fault Unit
  | 0 => raise .diverge
  | fuel + 1 => do
      let a ← E.alloc
      if a.base < a.end_ then
        E.clearing
        let node ← E.slabAlloc
        if node then
          let a' ← E.alloc
          let fpage := biggestFpage bits a'.base a'.base a'.end_
          insertTail E (fpOrder bits fpage) fpage
          E.filed a.base a.end_ fpage
          E.modify fun a => { a with base := wordAdd a.base (l4Size fpage) }
          clearLoop fuel
        else return ()
      else E.modify fun a => { a with active := false }

/-- `sys$fpage_clear_internal`.  The range shrinks in each iteration. -/
def fpageClearInternal : Prog ε σ Fault Unit := do
  let a ← E.alloc
  onlyIf (a.active = true) (clearLoop E bits wordSize)

/-- `sys$fpage_free_internal`. -/
def fpageFreeInternal (base end_ : Nat) : Prog ε σ Fault Unit := do
  let a ← E.alloc
  onlyIf (a.active = true) (fpageClearInternal E bits)
  E.modify fun a => { a with base := base, end_ := end_, active := true }

/-- The scan `for(i = 0; TAILQ_EMPTY(&alloc->flist[i]) && (i < MAX_FPAGE_ORDER); i++)`, with
    `n` iterations to go. -/
def firstUsed (flist : Nat → List Fpage) : Nat → Nat → Nat
  | 0, i => i
  | n + 1, i => if (flist i).isEmpty then firstUsed flist n (i + 1) else i

/-- The beginning of `sys$fpage_alloc_internal`: take the first block of the lowest order
    as the new internal range. -/
def refillInternal : Prog ε σ Fault Unit := do
  let a ← E.alloc
  let i := firstUsed a.flist maxFpageOrder 0
  if i = maxFpageOrder then raise .panic
  else
    match a.flist i with
    | [] => raise .panic
    | node :: rest =>
        E.modify fun a => { a with
          base := l4Address node
          end_ := fpEnd node
          active := true
          flist := Function.update a.flist i rest }
        E.slabFree

/-- `sys$fpage_alloc_internal`. -/
def fpageAllocInternal (size : Nat) : Prog ε σ Fault Nat := do
  let a ← E.alloc
  onlyIf (a.active = false) (refillInternal E)
  let a ← E.alloc
  if wordAdd (wordSub a.end_ a.base) 1 < size then return invalidAddr
  else
    E.modify fun a => { a with
      base := wordAdd a.base size
      active := if wordAdd a.base size ≥ a.end_ then false else a.active }
    return a.base

/-- `sys$fpage_free_chunk`. -/
def fpageFreeChunk (base end_ : Nat) : Prog ε σ Fault Unit := do
  let a ← E.alloc
  onlyIf (a.active = true) (fpageClearInternal E bits)
  fpageFreeInternal E bits base end_
  fpageClearInternal E bits

/-- `sz_order`: the shift count wraps, so the loop has seen every power of two after 64
    iterations. -/
def szOrder (size : Nat) : Nat → Nat → Option Nat
  | 0, _ => none
  | fuel + 1, order =>
      if wordShl 1 (order + bits) < size then szOrder size fuel (order + 1) else some order

/-- The scan of `sys$fpage_alloc` upwards from the requested order. -/
def scanUp (flist : Nat → List Fpage) : Nat → Nat → Nat
  | 0, i => i
  | n + 1, i => if (flist i).isEmpty then scanUp flist n (i + 1) else i

/-- The scan of `sys$fpage_alloc` downwards; `none` when `i` falls below 0. -/
def scanDown (flist : Nat → List Fpage) : Nat → Option Nat
  | 0 => if (flist 0).isEmpty then none else some 0
  | i + 1 => if (flist (i + 1)).isEmpty then scanDown flist i else some (i + 1)

/-- The loop of `sys$fpage_alloc` that gives the upper halves back. -/
def splitLoop (order : Nat) : Nat → Fpage → Prog ε σ Fault Fpage
  | 0, _ => raise .diverge
  | fuel + 1, fpage =>
      if fpOrder bits fpage > order then do
        let node ← E.slabAlloc
        if node then
          let fpage := l4FpageLog2 (l4Address fpage) (l4SizeLog2 fpage - 1)
          insertTail E (fpOrder bits fpage) (buddy fpage)
          splitLoop order fuel fpage
        else
          -- greater than the requested size
          return l4FpageLog2 (l4Address fpage) (l4SizeLog2 fpage + 1)
      else return fpage

/-- `sys$fpage_alloc`. -/
def fpageAlloc (size : Nat) : Prog ε σ Fault Fpage := do
  match szOrder bits size 64 0 with
  | none => raise .diverge
  | some order =>
      let a ← E.alloc
      match scanDown a.flist (scanUp a.flist (maxFpageOrder - order) order) with
      | none => return nilpage
      | some i =>
          match a.flist i with
          | [] => return nilpage
          | fpage :: rest =>
              E.modify fun a => { a with flist := Function.update a.flist i rest }
              E.slabFree
              splitLoop E bits order 64 fpage

/-- `sys$fpage_alloc_chunk`. -/
def fpageAllocChunk (size : Nat) : Prog ε σ Fault Nat := do
  let fpage ← fpageAlloc E bits size
  if l4IsNilFpage fpage then return invalidAddr
  else if l4Size fpage < size then
    fpageFreeChunk E bits (l4Address fpage) (fpEnd fpage)
    return invalidAddr
  else if l4Size fpage > size then
    fpageFreeChunk E bits (wordAdd (l4Address fpage) size) (fpEnd fpage)
    return l4Address fpage
  else return l4Address fpage

/-- `sys$fpage_free_extra`. -/
def fpageFreeExtra (fpage : Fpage) (base end_ : Nat) : Prog ε σ Fault Unit := do
  onlyIf (l4Address fpage < base)
    (fpageFreeChunk E bits (l4Address fpage) (wordSub base 1))
  onlyIf (wordAdd (l4Address fpage) (wordSub (l4Size fpage) 1) > end_)
    (fpageFreeChunk E bits (wordAdd end_ 1) (fpEnd fpage))

/-- `TAILQ_REMOVE` of the node in position `p` of list `i`; then trim and free any excess memory
    in its flexpage. -/
def removeNode (base end_ i p : Nat) (fpage : Fpage) : Prog ε σ Fault Unit := do
  E.modify fun a => { a with flist := Function.update a.flist i ((a.flist i).eraseIdx p) }
  E.slabFree
  fpageFreeExtra E bits fpage base end_

/-- The inner loop of `sys$fpage_remove_chunk` on list `i`, at the node in position `p`.
    The successor is read before the node is dealt with: when there is none, nodes that the
    trimming appends to this list are not visited. -/
def removeLoop (base end_ i : Nat) : Nat → Nat → Prog ε σ Fault Unit
  | 0, _ => raise .diverge
  | fuel + 1, p => do
      let a ← E.alloc
      match (a.flist i)[p]? with
      | none => return ()
      | some fpage =>
          let last := decide ((a.flist i).length ≤ p + 1)
          let fbase := l4Address fpage
          let fend := wordAdd fbase (wordSub (l4Size fpage) 1)
          if max base fbase < min end_ fend then
            removeNode E bits base end_ i p fpage
            if last then return () else removeLoop base end_ i fuel p
          else if last then return () else removeLoop base end_ i fuel (p + 1)

/-- The outer loop of `sys$fpage_remove_chunk`, with `n` lists to go.  The bytes of the list
    and of the internal range bound what its inner loop can visit. -/
def removeLists (base end_ : Nat) : Nat → Nat → Prog ε σ Fault Unit
  | 0, _ => return ()
  | n + 1, i => do
      let a ← E.alloc
      removeLoop E bits base end_ i (weight l4Size (a.flist i) + (a.end_ + 1 - a.base) + 1) 0
      removeLists base end_ n (i + 1)

/-- `sys$fpage_remove_chunk`. -/
def fpageRemoveChunk (base end_ : Nat) : Prog ε σ Fault Unit :=
  removeLists E bits base end_ (maxFpageOrder + 1) 0

/-- Give back the flexpages of a list and its nodes. -/
def freeNodes : List Fpage → Prog ε σ Fault Unit
  | [] => return ()
  | fpage :: rest => do
      fpageFreeChunk E bits (l4Address fpage) (fpEnd fpage)
      E.slabFree
      freeNodes rest

/-- `sys$fpage_free_list`. -/
def fpageFreeList (list : List Fpage) : Prog ε σ Fault Unit := freeNodes E bits list

/-- The loop of `sys$fpage_alloc_list`; `list` is what has been taken so far. -/
def allocListLoop (end_ pagesize : Nat) : Nat → Nat → List Fpage → Prog ε σ Fault (List Fpage)
  | 0, _, _ => raise .diverge
  | fuel + 1, base, list =>
      if base < end_ then
        if wordAdd (wordSub end_ base) 1 < pagesize then return list
        else do
          let fpage ← fpageAlloc E bits (l4Size (biggestFpage bits base base end_))
          if l4IsNilFpage fpage then
            freeNodes E bits list
            return []
          else
            let node ← E.slabAlloc
            if node then
              allocListLoop end_ pagesize fuel (wordAdd base (l4Size fpage)) (list ++ [fpage])
            else
              freeNodes E bits list
              return []
      else return list

/-- `sys$fpage_alloc_list`.  Each iteration takes a flexpage off the free lists. -/
def fpageAllocList (base end_ pagesize : Nat) : Prog ε σ Fault (List Fpage) := do
  let a ← E.alloc
  allocListLoop E bits end_ pagesize (total l4Size a.flist (maxFpageOrder + 1) + 1) base []

end Code

end FreeVMS.Alloc
