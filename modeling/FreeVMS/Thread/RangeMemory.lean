import FreeVMS.Thread.Lists
import FreeVMS.Thread.RangeList
import Mathlib.Data.List.Perm.Subperm

/-!
# The range free list in memory

`sys_rfl.c` on the cells of `sys_lists.c`: the list is a ring whose head holds no range, and the ranges
are memory of their own.  It is the list of `Thread/RangeList.lean` as long as there is memory, and one
call tells its caller nothing of a range that it has lost.
-/

namespace FreeVMS.Thread

open Alloc Run LinkRing Linked

namespace RangeCells

/-- The cells, and the ranges at their addresses. -/
structure Memory where
  cells : Cells
  range : Nat → Range

/-- What `sys$rfl_insert_range` returns. -/
inductive Outcome where
  | status (s : RflStatus)
  /-- `E_RFL_NOMEM` -/
  | noMem
deriving DecidableEq, Repr

namespace Memory

/-- `p->data` -/
def data (m : Memory) (p : Nat) : Except ListFault Nat :=
  if p ∈ m.cells.live then .ok (m.cells.data p) else .error (.dead p)

def load (m : Memory) (p : Nat) : Except ListFault Range :=
  if p ∈ m.cells.live then .ok (m.range p) else .error (.dead p)

def store (m : Memory) (p : Nat) (r : Range) : Except ListFault Memory :=
  if p ∈ m.cells.live then .ok { m with range := Function.update m.range p r } else .error (.dead p)

/-- `sys$free` -/
def free (m : Memory) (p : Nat) : Except ListFault Memory :=
  (m.cells.free p).map fun c => { m with cells := c }

/-- `ll_delete` -/
def delete (m : Memory) (ll : Nat) : Except ListFault Memory :=
  (llDelete ll m.cells).map fun r => { m with cells := r.1 }

end Memory

/-- The range of a cell now goes from `lo` to `hi`; it is merged with the next one if that begins right
    after it. -/
def extend (temp lo hi : Nat) (m : Memory) : Except ListFault Memory := do
  let p ← m.data temp
  let nextRange ← m.data (← m.cells.next temp)
  let m ← m.store p ⟨lo, hi⟩
  if nextRange ≠ 0 then
    let next ← m.load nextRange
    if wordAdd hi 1 = next.lo then
      let m ← m.store p ⟨lo, next.hi⟩
      let m ← m.free nextRange
      m.delete (← m.cells.next temp)
    else return m
  else return m

/-- The loop of `sys$rfl_insert_range`: the status, or the cell before which the range has to go. -/
def insertLoop (root lo hi : Nat) : Nat → Nat → Memory → Except ListFault (Memory × (RflStatus ⊕ Nat))
  | 0, _, _ => .error .diverge
  | fuel + 1, temp, m =>
      if temp = root then .ok (m, .inr temp)
      else do
        let p ← m.data temp
        let range ← m.load p
        if (lo ≥ range.lo ∧ lo ≤ range.hi) ∨ (hi ≥ range.lo ∧ hi ≤ range.hi) then
          return (m, .inl .overlap)
        else if range.lo = wordAdd hi 1 then
          let m ← m.store p ⟨lo, range.hi⟩
          return (m, .inl .success)
        else if range.hi = wordSub lo 1 then
          let m ← extend temp range.lo hi m
          return (m, .inl .success)
        else if range.lo > hi then return (m, .inr temp)
        else insertLoop root lo hi fuel (← m.cells.next temp) m

/-- `sys$rfl_insert_range`; `newRange` and `node` are what `sys$alloc` answers, here and in
    `ll_insert_before`, whose answer is not looked at. -/
def rflInsertRange (root lo hi newRange node fuel : Nat) (m : Memory) :
    Except ListFault (Memory × Outcome) :=
  if lo > hi then .ok (m, .status .invRange)
  else do
    let (m, found) ← insertLoop root lo hi fuel (← m.cells.next root) m
    match found with
    | .inl s => return (m, .status s)
    | .inr temp =>
        if newRange = 0 then return (m, .noMem)
        else
          let (c, _) ← llInsertBefore temp newRange node (m.cells.alloc newRange)
          let m ← { m with cells := c }.store newRange ⟨lo, hi⟩
          return (m, .status .success)

/-- `sys$rfl_alloc` -/
def rflAlloc (root : Nat) (m : Memory) : Except ListFault (Memory × Nat) := do
  let first ← m.cells.next root
  if first = root then return (m, wordSize - 1)
  else
    let p ← m.data first
    let range ← m.load p
    if range.lo = range.hi then
      let m ← m.free p
      let m ← m.delete (← m.cells.next root)
      return (m, range.lo)
    else
      let m ← m.store p ⟨wordAdd range.lo 1, range.hi⟩
      return (m, range.lo)

/-! ### What the memory holds -/

/-- The range of a cell. -/
def Memory.rangeOf (m : Memory) (x : Nat) : Range := m.range (m.cells.data x)

/-- The ring of the cells `v` on the head `root` holds the ranges `list`. -/
structure Holds (root : Nat) (m : Memory) (list : List Range) (v : List Nat) : Prop where
  ring : Ring m.cells.links root v
  head : m.cells.data root = 0
  ranges : v.map m.rangeOf = list
  nodup : ((root :: v) ++ v.map m.cells.data).Nodup
  live : ∀ p ∈ (root :: v) ++ v.map m.cells.data, p ∈ m.cells.live
  nonzero : 0 ∉ v.map m.cells.data

section

variable {root x y lo hi : Nat} {m : Memory} {list : List Range} {v l r : List Nat} {R : Range}

theorem Holds.cell_live (h : Holds root m list v) (hx : x ∈ root :: v) : x ∈ m.cells.live :=
  h.live x (List.mem_append_left _ hx)

theorem Holds.data_live (h : Holds root m list v) (hx : x ∈ v) : m.cells.data x ∈ m.cells.live :=
  h.live _ (List.mem_append_right _ (List.mem_map_of_mem hx))

theorem Holds.data_ne (h : Holds root m list (l ++ x :: r)) :
    ∀ y ∈ l ++ r, m.cells.data y ≠ m.cells.data x := by
  intro y hy heq
  have hdata := (List.nodup_append.mp h.nodup).2.1
  rw [List.map_append, List.map_cons] at hdata
  have hmid := (List.perm_middle.nodup_iff.mp hdata)
  refine (List.nodup_cons.mp hmid).1 ?_
  rw [← List.map_append, ← heq]
  exact List.mem_map_of_mem hy

/-- The other ranges are the same when one is written. -/
theorem Holds.rangeOf_store (h : Holds root m list (l ++ x :: r)) (R : Range) (hy : y ∈ l ++ r) :
    Memory.rangeOf { m with range := Function.update m.range (m.cells.data x) R } y = m.rangeOf y :=
  Function.update_of_ne (h.data_ne y hy) _ _

/-- A range is written. -/
theorem Holds.store (h : Holds root m list (l ++ x :: r)) (R : Range) :
    m.store (m.cells.data x) R = .ok { m with range := Function.update m.range (m.cells.data x) R } ∧
      Holds root { m with range := Function.update m.range (m.cells.data x) R }
        (l.map m.rangeOf ++ R :: r.map m.rangeOf) (l ++ x :: r) := by
  have hmem : x ∈ l ++ x :: r := List.mem_append_right l List.mem_cons_self
  refine ⟨if_pos (h.data_live hmem), h.ring, h.head, ?_, h.nodup, h.live, h.nonzero⟩
  rw [List.map_append, List.map_cons]
  congr 1
  · exact List.map_congr_left fun y hy => h.rangeOf_store R (List.mem_append_left r hy)
  · congr 1
    · exact Function.update_self _ _ _
    · exact List.map_congr_left fun y hy => h.rangeOf_store R (List.mem_append_right l hy)

/-- A cell is taken out together with its range. -/
theorem Holds.remove (h : Holds root m list (l ++ x :: r)) :
    ∃ m₁ m₂, m.free (m.cells.data x) = .ok m₁ ∧ m₁.cells.links = m.cells.links ∧
      (∀ y ∈ root :: (l ++ x :: r), y ∈ m₁.cells.live) ∧ m₁.delete x = .ok m₂ ∧
      Holds root m₂ (l.map m.rangeOf ++ r.map m.rangeOf) (l ++ r) ∧
      ∀ p ∈ m₂.cells.live, p ∈ m.cells.live := by
  have hmem : x ∈ l ++ x :: r := List.mem_append_right l List.mem_cons_self
  have hring := h.ring
  obtain ⟨hcells, hdata, hdisjoint⟩ := List.nodup_append.mp h.nodup
  let c₁ : Cells := { m.cells with live := m.cells.live.filter fun q => q ≠ m.cells.data x }
  have hlive₁ : ∀ y ∈ root :: (l ++ x :: r), y ∈ c₁.live := by
    intro y hy
    have hne := hdisjoint y hy (m.cells.data x) (List.mem_map_of_mem hmem)
    exact List.mem_filter.mpr ⟨h.cell_live hy, by simpa using hne⟩
  have hnext : m.cells.links.next x = firstOf r root := hring.next_cell
  have hprev : m.cells.links.prev x = lastOf root l := hring.prev_cell
  have hnext_mem : firstOf r root ∈ root :: (l ++ x :: r) := by
    rcases List.mem_cons.mp (firstOf_mem r root) with heq | hin
    · rw [heq]
      exact List.mem_cons_self
    · exact List.mem_cons_of_mem _ (List.mem_append_right l (List.mem_cons_of_mem _ hin))
  have hprev_mem : lastOf root l ∈ root :: (l ++ x :: r) :=
    List.mem_append_left (x :: r) (lastOf_mem root l)
  have hx : x ∉ root :: (l ++ r) := by
    have hperm : (root :: (l ++ x :: r)).Perm (x :: root :: (l ++ r)) :=
      (List.perm_middle.cons root).trans (List.Perm.swap x root _)
    exact (List.nodup_cons.mp (hperm.nodup_iff.mp hcells)).1
  have hne : x ≠ m.cells.links.next x := by
    rw [hnext]
    rintro heq
    apply hx
    rw [heq]
    rcases List.mem_cons.mp (firstOf_mem r root) with hr | hr
    · rw [hr]
      exact List.mem_cons_self
    · exact List.mem_cons_of_mem _ (List.mem_append_right l hr)
  have hdelete := llDelete_eq (c := c₁) (hlive₁ x (List.mem_cons_of_mem _ hmem))
    (hlive₁ _ (hnext ▸ hnext_mem)) (hlive₁ _ (hprev ▸ hprev_mem)) hne
  have hsub : ∀ y ∈ (root :: (l ++ r)) ++ (l ++ r).map m.cells.data,
      y ∈ (root :: (l ++ x :: r)) ++ (l ++ x :: r).map m.cells.data ∧ y ≠ m.cells.data x ∧ y ≠ x := by
    intro y hy
    rcases List.mem_append.mp hy with hy | hy
    · have hin : y ∈ root :: (l ++ x :: r) := by
        simp only [List.mem_cons, List.mem_append] at hy ⊢
        tauto
      refine ⟨List.mem_append_left _ hin, ?_, ne_of_mem_of_not_mem hy hx⟩
      exact hdisjoint y hin (m.cells.data x) (List.mem_map_of_mem hmem)
    · obtain ⟨z, hz, rfl⟩ := List.mem_map.mp hy
      have hin : z ∈ l ++ x :: r := by
        simp only [List.mem_cons, List.mem_append] at hz ⊢
        tauto
      refine ⟨List.mem_append_right _ (List.mem_map_of_mem hin), h.data_ne z hz, ?_⟩
      exact (hdisjoint x (List.mem_cons_of_mem _ hmem) _ (List.mem_map_of_mem hin)).symm
  refine ⟨{ m with cells := c₁ }, { m with cells :=
    { c₁ with links := c₁.links.unlink x, live := c₁.live.filter fun q => q ≠ x } }, ?_, rfl, hlive₁, ?_,
    ⟨hring.unlink, h.head, ?_, ?_, fun p hp => ?_, fun hzero => ?_⟩, fun p hp => ?_⟩
  · rw [Memory.free, Cells.free, if_pos (h.data_live hmem)]
    rfl
  · rw [Memory.delete, hdelete]
    rfl
  · exact List.map_append
  · have hperm : ((root :: (l ++ x :: r)) ++ (l ++ x :: r).map m.cells.data).Perm
        (x :: m.cells.data x :: ((root :: (l ++ r)) ++ (l ++ r).map m.cells.data)) := by
      rw [List.map_append, List.map_cons, List.map_append]
      refine (List.Perm.append ((List.perm_middle.cons root).trans (List.Perm.swap x root _))
        List.perm_middle).trans ?_
      exact List.Perm.cons x List.perm_middle
    have hall := hperm.nodup_iff.mp h.nodup
    exact (List.nodup_cons.mp (List.nodup_cons.mp hall).2).2
  · obtain ⟨hin, hdata', hx'⟩ := hsub p hp
    exact List.mem_filter.mpr ⟨List.mem_filter.mpr ⟨h.live p hin, by simpa using hdata'⟩, by simpa using hx'⟩
  · obtain ⟨z, hz, heq⟩ := List.mem_map.mp hzero
    refine h.nonzero (List.mem_map.mpr ⟨z, ?_, heq⟩)
    simp only [List.mem_cons, List.mem_append] at hz ⊢
    tauto
  · exact (List.mem_filter.mp (List.mem_filter.mp hp).1).1

/-! ### The loop -/

theorem extend_spec (h : Holds root m list (l ++ x :: r)) (lo hi : Nat) :
    ∃ m' v', extend x lo hi m = .ok m' ∧
      Holds root m' (l.map m.rangeOf ++ rflExtend lo hi (r.map m.rangeOf)) v' ∧
      (rflExtend lo hi (r.map m.rangeOf)).length ≤ (x :: r).length ∧
      ∀ p ∈ m'.cells.live, p ∈ m.cells.live := by
  have hmem : x ∈ l ++ x :: r := List.mem_append_right l List.mem_cons_self
  have hlive := h.cell_live (List.mem_cons_of_mem _ hmem)
  have hdata := h.data_live hmem
  obtain ⟨hstore, hstored⟩ := h.store ⟨lo, hi⟩
  cases r with
  | nil =>
    have hnext : m.cells.next x = .ok root := by
      rw [Cells.next, if_pos hlive, h.ring.next_cell]
      rfl
    have hroot : root ∈ m.cells.live := h.cell_live List.mem_cons_self
    refine ⟨_, _, ?_, hstored, le_rfl, fun p hp => hp⟩
    rw [extend]
    simp only [Memory.data, if_pos hlive, hnext, if_pos hroot, hstore, h.head, bind, Except.bind]
    rfl
  | cons y r =>
    have hmem' : y ∈ l ++ x :: y :: r :=
      List.mem_append_right l (List.mem_cons_of_mem _ List.mem_cons_self)
    have hnext : m.cells.next x = .ok y := by
      rw [Cells.next, if_pos hlive, h.ring.next_cell]
      rfl
    have hlive' := h.cell_live (List.mem_cons_of_mem _ hmem')
    have hdata' := h.data_live hmem'
    have hnonzero : m.cells.data y ≠ 0 := fun heq =>
      h.nonzero (heq ▸ List.mem_map_of_mem hmem')
    have hne : m.cells.data y ≠ m.cells.data x :=
      h.data_ne y (List.mem_append_right l List.mem_cons_self)
    have hsame : Function.update m.range (m.cells.data x) ⟨lo, hi⟩ (m.cells.data y) = m.rangeOf y :=
      Function.update_of_ne hne _ _
    rw [extend]
    simp only [Memory.data, if_pos hlive, hnext, if_pos hlive', hstore, if_pos hnonzero, Memory.load,
      if_pos hdata', hsame, bind, Except.bind]
    rw [List.map_cons, rflExtend]
    by_cases hmerge : wordAdd hi 1 = (m.rangeOf y).lo
    · -- the next range is part of this one now
      rw [if_pos hmerge, if_pos hmerge]
      obtain ⟨hstore₂, hstored₂⟩ := h.store ⟨lo, (m.rangeOf y).hi⟩
      have hagain : Memory.store { m with range := Function.update m.range (m.cells.data x) ⟨lo, hi⟩ }
          (m.cells.data x) ⟨lo, (m.rangeOf y).hi⟩ = m.store (m.cells.data x) ⟨lo, (m.rangeOf y).hi⟩ := by
        simp only [Memory.store, Function.update_idem]
      generalize hm₂ : { m with range := Function.update m.range (m.cells.data x) ⟨lo, (m.rangeOf y).hi⟩ } =
        m₂ at hstore₂ hstored₂
      have hcells : m₂.cells = m.cells := by rw [← hm₂]
      have hsplit : l ++ x :: y :: r = (l ++ [x]) ++ y :: r := by
        rw [List.append_assoc, List.singleton_append]
      rw [hsplit] at hstored₂
      obtain ⟨m₃, m₄, hfree, hlinks, hlive₃, hdelete, hremoved, hsub⟩ := hstored₂.remove
      rw [hcells] at hfree hlinks hsub
      have hx₃ : x ∈ m₃.cells.live := hlive₃ x (List.mem_cons_of_mem _ (List.mem_append_left _
        (List.mem_append_right l List.mem_cons_self)))
      have hnext₃ : m₃.cells.next x = .ok y := by
        rw [Cells.next, if_pos hx₃, hlinks]
        rw [Cells.next, if_pos hlive] at hnext
        exact hnext
      simp only [hagain, hstore₂, hfree, hnext₃, hdelete]
      refine ⟨m₄, (l ++ [x]) ++ r, rfl, ?_, ?_, hsub⟩
      · have hrest : ∀ z ∈ l ++ y :: r, m₂.rangeOf z = m.rangeOf z := by
          intro z hz
          rw [← hm₂]
          exact h.rangeOf_store _ hz
        have hx₂ : m₂.rangeOf x = ⟨lo, (m.rangeOf y).hi⟩ := by
          rw [← hm₂]
          exact Function.update_self _ _ _
        have hl : l.map m₂.rangeOf = l.map m.rangeOf :=
          List.map_congr_left fun z hz => hrest z (List.mem_append_left _ hz)
        have hr : r.map m₂.rangeOf = r.map m.rangeOf :=
          List.map_congr_left fun z hz => hrest z (List.mem_append_right l (List.mem_cons_of_mem _ hz))
        rw [List.map_append, List.map_singleton, hl, hr, hx₂, List.append_assoc,
          List.singleton_append] at hremoved
        exact hremoved
      · simp
    · rw [if_neg hmerge, if_neg hmerge]
      refine ⟨_, _, rfl, hstored, ?_, fun p hp => hp⟩
      simp

/-- What the loop has found: an overlap, a range that has been made larger, or the cell before which
    the range has to go. -/
def Found (root lo hi : Nat) (m : Memory) (l r : List Nat) (out : Memory × (RflStatus ⊕ Nat)) : Prop :=
  match rflScan lo hi (r.map m.rangeOf) with
  | none => out = (m, .inl .overlap)
  | some list' =>
      (∃ m' v', out = (m', .inl .success) ∧ Holds root m' (l.map m.rangeOf ++ list') v' ∧
        list'.length ≤ r.length ∧ ∀ p ∈ m'.cells.live, p ∈ m.cells.live) ∨
      ∃ r₁ r₂, r = r₁ ++ r₂ ∧ out = (m, .inr (firstOf r₂ root)) ∧
        list' = r₁.map m.rangeOf ++ ⟨lo, hi⟩ :: r₂.map m.rangeOf

theorem insertLoop_spec (lo hi : Nat) (h : Holds root m list v) : ∀ (r l : List Nat) (fuel : Nat), v = l ++ r →
    r.length < fuel → ∃ out, insertLoop root lo hi fuel (firstOf r root) m = .ok out ∧
      Found root lo hi m l r out := by
  intro r
  induction r with
  | nil =>
    intro l fuel hv hfuel
    obtain ⟨fuel, rfl⟩ := Nat.exists_eq_add_one_of_ne_zero (Nat.ne_of_gt hfuel)
    exact ⟨_, if_pos rfl, .inr ⟨[], [], rfl, rfl, rfl⟩⟩
  | cons x r ih =>
    intro l fuel hv hfuel
    obtain ⟨fuel, rfl⟩ := Nat.exists_eq_add_one_of_ne_zero (Nat.ne_of_gt (Nat.zero_lt_of_lt hfuel))
    subst hv
    have hmem : x ∈ l ++ x :: r := List.mem_append_right l List.mem_cons_self
    have hx : x ≠ root := by
      rintro rfl
      exact (List.nodup_cons.mp h.ring.nodup).1 hmem
    have hlive := h.cell_live (List.mem_cons_of_mem _ hmem)
    have hdata := h.data_live hmem
    have hnext : m.cells.next x = .ok (firstOf r root) := by
      rw [Cells.next, if_pos hlive, h.ring.next_cell]
    have hrange : m.range (m.cells.data x) = m.rangeOf x := rfl
    rw [insertLoop, firstOf, if_neg hx]
    simp only [Memory.data, if_pos hlive, Memory.load, if_pos hdata, hnext, hrange, bind, Except.bind, pure,
      Except.pure, Found, List.map_cons, rflScan]
    by_cases hoverlap : (lo ≥ (m.rangeOf x).lo ∧ lo ≤ (m.rangeOf x).hi) ∨
        (hi ≥ (m.rangeOf x).lo ∧ hi ≤ (m.rangeOf x).hi)
    · simp only [if_pos hoverlap]
      exact ⟨_, rfl, rfl⟩
    simp only [if_neg hoverlap]
    by_cases hbefore : (m.rangeOf x).lo = wordAdd hi 1
    · obtain ⟨hstore, hstored⟩ := h.store ⟨lo, (m.rangeOf x).hi⟩
      simp only [if_pos hbefore, hstore]
      refine ⟨_, rfl, .inl ⟨_, _, rfl, hstored, ?_, fun p hp => hp⟩⟩
      simp
    simp only [if_neg hbefore]
    by_cases hafter : (m.rangeOf x).hi = wordSub lo 1
    · obtain ⟨m', v', hextend, hholds, hlength, hsub⟩ := extend_spec h (m.rangeOf x).lo hi
      simp only [if_pos hafter, hextend]
      exact ⟨_, rfl, .inl ⟨m', v', rfl, hholds, hlength, hsub⟩⟩
    simp only [if_neg hafter]
    by_cases hplace : (m.rangeOf x).lo > hi
    · simp only [if_pos hplace]
      exact ⟨_, rfl, .inr ⟨[], x :: r, rfl, rfl, rfl⟩⟩
    simp only [if_neg hplace]
    obtain ⟨out, hloop, hfound⟩ := ih (l ++ [x]) fuel (by rw [List.append_assoc, List.singleton_append])
      (Nat.lt_of_succ_lt_succ hfuel)
    refine ⟨out, hloop, ?_⟩
    -- the rest of the list is the rest of the ring
    rw [Found] at hfound
    cases hscan : rflScan lo hi (r.map m.rangeOf) with
    | none =>
      rw [hscan] at hfound
      exact hfound
    | some list' =>
      rw [hscan] at hfound
      simp only [Option.map_some]
      rcases hfound with ⟨m', v', rfl, hholds, hlength, hsub⟩ | ⟨r₁, r₂, rfl, rfl, rfl⟩
      · rw [List.map_append, List.map_singleton, List.append_assoc, List.singleton_append] at hholds
        exact .inl ⟨m', v', rfl, hholds, Nat.succ_le_succ hlength, hsub⟩
      · exact .inr ⟨x :: r₁, r₂, rfl, rfl, rfl⟩

/-! ### The calls -/

/-- More memory is in use. -/
theorem Holds.alloc (h : Holds root m list v) {p : Nat} (hp : p ∉ m.cells.live) (R : Range) :
    Holds root ⟨m.cells.alloc p, Function.update m.range p R⟩ list v := by
  refine ⟨h.ring, h.head, ?_, h.nodup, fun q hq => List.mem_cons_of_mem _ (h.live q hq), h.nonzero⟩
  rw [← h.ranges]
  refine List.map_congr_left fun x hx => Function.update_of_ne ?_ _ _
  exact ne_of_mem_of_not_mem (h.data_live hx) hp

/-- A new cell with a new range. -/
theorem Holds.insert (h : Holds root m list (l ++ r)) {p node : Nat} (hp : p ∉ m.cells.live)
    (hp0 : p ≠ 0) (hnode : node ∉ m.cells.live) (hne : node ≠ p) (R : Range) :
    Holds root
      ⟨{ links := m.cells.links.between (lastOf root l) (firstOf r root) node
         data := Function.update m.cells.data node p
         live := node :: p :: m.cells.live }, Function.update m.range p R⟩
      (l.map m.rangeOf ++ R :: r.map m.rangeOf) (l ++ node :: r) := by
  have hout : node ∉ root :: (l ++ r) := fun hmem => hnode (h.cell_live hmem)
  have hdata : ∀ x ∈ l ++ r, Function.update m.cells.data node p x = m.cells.data x := fun x hx =>
    Function.update_of_ne (ne_of_mem_of_not_mem (List.mem_cons_of_mem _ hx) hout) _ _
  have hrange : ∀ x ∈ l ++ r, Function.update m.range p R (Function.update m.cells.data node p x) =
      m.rangeOf x := by
    intro x hx
    rw [hdata x hx]
    exact Function.update_of_ne (ne_of_mem_of_not_mem (h.data_live hx) hp) _ _
  have hmap : (l ++ node :: r).map (Function.update m.cells.data node p) =
      l.map m.cells.data ++ p :: r.map m.cells.data := by
    rw [List.map_append, List.map_cons, Function.update_self]
    rw [List.map_congr_left fun x hx => hdata x (List.mem_append_left r hx)]
    rw [List.map_congr_left fun x hx => hdata x (List.mem_append_right l hx)]
  constructor
  case ring => exact h.ring.between hout
  case head =>
    refine (Function.update_of_ne ?_ _ _).trans h.head
    exact (List.ne_of_not_mem_cons hout).symm
  case ranges =>
    rw [List.map_append, List.map_cons]
    congr 1
    · exact List.map_congr_left fun x hx => hrange x (List.mem_append_left r hx)
    · congr 1
      · show Function.update m.range p R (Function.update m.cells.data node p node) = R
        rw [Function.update_self, Function.update_self]
      · exact List.map_congr_left fun x hx => hrange x (List.mem_append_right l hx)
  case nodup =>
    show ((root :: (l ++ node :: r)) ++ (l ++ node :: r).map (Function.update m.cells.data node p)).Nodup
    rw [hmap]
    have hperm : ((root :: (l ++ node :: r)) ++ (l.map m.cells.data ++ p :: r.map m.cells.data)).Perm
        (node :: p :: ((root :: (l ++ r)) ++ (l ++ r).map m.cells.data)) := by
      rw [List.map_append]
      refine (List.Perm.append ((List.perm_middle.cons root).trans (List.Perm.swap node root _))
        List.perm_middle).trans ?_
      exact List.Perm.cons node List.perm_middle
    rw [hperm.nodup_iff, List.nodup_cons, List.nodup_cons]
    refine ⟨fun hmem => ?_, fun hmem => hp (h.live p hmem), h.nodup⟩
    rcases List.mem_cons.mp hmem with heq | hmem
    · exact hne heq
    · exact hnode (h.live node hmem)
  case live =>
    intro q hq
    show q ∈ node :: p :: m.cells.live
    have hq : q ∈ (root :: (l ++ node :: r)) ++ (l ++ node :: r).map (Function.update m.cells.data node p) :=
      hq
    rw [hmap] at hq
    have hor : q = node ∨ q = p ∨ q ∈ (root :: (l ++ r)) ++ (l ++ r).map m.cells.data := by
      simp only [List.mem_cons, List.mem_append, List.map_append] at hq ⊢
      tauto
    rcases hor with rfl | rfl | hold
    · exact List.mem_cons_self
    · exact List.mem_cons_of_mem _ List.mem_cons_self
    · exact List.mem_cons_of_mem _ (List.mem_cons_of_mem _ (h.live q hold))
  case nonzero =>
    show 0 ∉ (l ++ node :: r).map (Function.update m.cells.data node p)
    rw [hmap]
    intro hzero
    have hor : 0 = p ∨ 0 ∈ (l ++ r).map m.cells.data := by
      simp only [List.mem_cons, List.mem_append, List.map_append] at hzero ⊢
      tauto
    rcases hor with heq | hold
    · exact hp0 heq.symm
    · exact h.nonzero hold

/-- There are not more cells than memory in use. -/
theorem Holds.length_lt (h : Holds root m list v) : v.length < m.cells.live.length + 1 := by
  have hnodup := (List.nodup_cons.mp h.ring.nodup).2
  have hsub : v ⊆ m.cells.live := fun x hx => h.cell_live (List.mem_cons_of_mem _ hx)
  exact Nat.lt_succ_of_le (hnodup.subperm hsub).length_le

end

/-- What an insertion into the list does when memory may be short.  A new range is needed where the list
    gets longer. -/
def insertRange (lo hi newRange node : Nat) (list : List Range) : Outcome × List Range :=
  match Thread.rflInsertRange list lo hi with
  | (.success, list') =>
      if list'.length ≤ list.length then (.status .success, list')
      else if newRange = 0 then (.noMem, list)
      else if node = 0 then (.status .success, list)
      else (.status .success, list')
  | (s, _) => (.status s, list)

section

variable {root lo hi newRange node fuel : Nat} {m : Memory} {list : List Range} {v : List Nat}

theorem rflInsertRange_spec (lo hi : Nat) (h : Holds root m list v) (hfuel : v.length < fuel)
    (hrange : newRange ≠ 0 → newRange ∉ m.cells.live)
    (hnode : node ≠ 0 → node ∉ m.cells.live ∧ node ≠ newRange) :
    ∃ m' v', rflInsertRange root lo hi newRange node fuel m =
        .ok (m', (insertRange lo hi newRange node list).1) ∧
      Holds root m' (insertRange lo hi newRange node list).2 v' := by
  rw [rflInsertRange, insertRange, Thread.rflInsertRange]
  by_cases hlohi : lo > hi
  · rw [if_pos hlohi, if_pos hlohi]
    exact ⟨m, v, rfl, h⟩
  rw [if_neg hlohi, if_neg hlohi]
  have hroot : root ∈ m.cells.live := h.cell_live List.mem_cons_self
  have hnext : m.cells.next root = .ok (firstOf v root) := by
    rw [Cells.next, if_pos hroot, h.ring.next.next_eq]
  obtain ⟨out, hloop, hfound⟩ := insertLoop_spec lo hi h v [] fuel rfl hfuel
  rw [Found, h.ranges] at hfound
  have hlength : list.length = v.length := by rw [← h.ranges, List.length_map]
  simp only [hnext, hloop, bind, Except.bind]
  cases hscan : rflScan lo hi list with
  | none =>
    rw [hscan] at hfound
    obtain rfl := hfound
    exact ⟨m, v, rfl, h⟩
  | some list' =>
    rw [hscan] at hfound
    simp only
    rcases hfound with ⟨m', v', rfl, hholds, hshort, -⟩ | ⟨r₁, r₂, rfl, rfl, rfl⟩
    · rw [if_pos (hlength ▸ hshort)]
      exact ⟨m', v', rfl, hholds⟩
    have hlong : ¬ (r₁.map m.rangeOf ++ ⟨lo, hi⟩ :: r₂.map m.rangeOf).length ≤ list.length := by
      rw [hlength]
      simp
    by_cases hzero : newRange = 0
    · simp only [if_neg hlong, if_pos hzero]
      exact ⟨m, _, rfl, h⟩
    simp only [if_neg hlong, if_neg hzero]
    have hnew := hrange hzero
    by_cases hnode0 : node = 0
    · -- the cell is missing, and nobody looks
      refine ⟨⟨m.cells.alloc newRange, Function.update m.range newRange ⟨lo, hi⟩⟩, r₁ ++ r₂, ?_, ?_⟩
      rotate_left
      · rw [if_pos hnode0]
        exact h.alloc hnew ⟨lo, hi⟩
      simp only [if_pos hnode0, llInsertBefore, Memory.store, Cells.alloc, List.mem_cons, true_or, if_true]
      rfl
    · simp only [if_neg hnode0]
      obtain ⟨hnode1, hnode2⟩ := hnode hnode0
      refine ⟨_, _, ?_, h.insert hnew hzero hnode1 hnode2 ⟨lo, hi⟩⟩
      have hfirst : firstOf r₂ root ∈ m.cells.live := by
        refine h.cell_live ?_
        rcases List.mem_cons.mp (firstOf_mem r₂ root) with heq | hmem
        · rw [heq]
          exact List.mem_cons_self
        · exact List.mem_append_right (root :: r₁) hmem
      have hprev : m.cells.links.prev (firstOf r₂ root) = lastOf root r₁ := h.ring.prev_first
      have hlast : lastOf root r₁ ∈ m.cells.live :=
        h.cell_live (List.mem_append_left r₂ (lastOf_mem root r₁))
      rw [llInsertBefore_eq hnode0 (List.mem_cons_of_mem _ hfirst)
        (List.mem_cons_of_mem _ (by rw [← hprev] at hlast; exact hlast))]
      simp only [Memory.store, Cells.alloc, List.mem_cons, true_or, or_true, if_true, hprev]
      rfl

theorem rflAlloc_spec (h : Holds root m list v) :
    ∃ m' v', rflAlloc root m = .ok (m', (Thread.rflAlloc list).1) ∧
      Holds root m' (Thread.rflAlloc list).2 v' := by
  have hroot : root ∈ m.cells.live := h.cell_live List.mem_cons_self
  have hnext : m.cells.next root = .ok (firstOf v root) := by
    rw [Cells.next, if_pos hroot, h.ring.next.next_eq]
  rw [rflAlloc]
  cases v with
  | nil =>
    obtain rfl : [] = list := h.ranges
    simp only [hnext, firstOf, if_true, bind, Except.bind]
    exact ⟨m, [], rfl, h⟩
  | cons x v =>
    have hx : x ≠ root := fun heq => (List.nodup_cons.mp h.ring.nodup).1 (heq ▸ List.mem_cons_self)
    have hlive := h.cell_live (List.mem_cons_of_mem root (List.mem_cons_self (a := x) (l := v)))
    have hdata := h.data_live (List.mem_cons_self (a := x) (l := v))
    have hlist : list = m.rangeOf x :: v.map m.rangeOf := by rw [← h.ranges, List.map_cons]
    have hrange : m.range (m.cells.data x) = m.rangeOf x := rfl
    rw [hlist, Thread.rflAlloc]
    simp only [hnext, firstOf, if_neg hx, Memory.data, if_pos hlive, Memory.load, if_pos hdata, hrange, bind,
      Except.bind]
    by_cases hlast : (m.rangeOf x).lo = (m.rangeOf x).hi
    · obtain ⟨m₁, m₂, hfree, hlinks, hlive₁, hdelete, hremoved, -⟩ := h.remove (l := [])
      have hnext₁ : m₁.cells.next root = .ok x := by
        rw [Cells.next, if_pos (hlive₁ root List.mem_cons_self), hlinks, h.ring.next.next_eq]
        rfl
      simp only [if_pos hlast, hfree, hnext₁, hdelete]
      exact ⟨m₂, v, rfl, hremoved⟩
    · obtain ⟨hstore, hstored⟩ := h.store (l := []) ⟨wordAdd (m.rangeOf x).lo 1, (m.rangeOf x).hi⟩
      simp only [if_neg hlast, hstore]
      exact ⟨_, _, rfl, hstored⟩

end

/-! ### Runs -/

/-- A call on the list, with what `sys$alloc` answers. -/
inductive RangeOp where
  | insert (lo hi newRange node : Nat)
  | free (val newRange node : Nat)
  | alloc
deriving DecidableEq, Repr

inductive Answer where
  | outcome (o : Outcome)
  | number (n : Nat)
deriving DecidableEq, Repr

structure RflRun where
  mem : Memory
  answers : List Answer

/-- The list in its place. -/
structure Ranges where
  list : List Range
  answers : List Answer

def RflRun.answer (s : RflRun) (r : Except ListFault (Memory × Outcome)) : Except ListFault RflRun :=
  r.map fun (m, o) => ⟨m, s.answers ++ [.outcome o]⟩

/-- A list that is longer than the memory in use is a ring without its head. -/
def step (root : Nat) (op : RangeOp) (s : RflRun) : Except ListFault RflRun :=
  match op with
  | .insert lo hi newRange node =>
      s.answer (rflInsertRange root lo hi newRange node (s.mem.cells.live.length + 1) s.mem)
  | .free val newRange node =>
      s.answer (rflInsertRange root val val newRange node (s.mem.cells.live.length + 1) s.mem)
  | .alloc => (rflAlloc root s.mem).map fun (m, n) => ⟨m, s.answers ++ [.number n]⟩

def Ranges.insert (lo hi newRange node : Nat) (g : Ranges) : Ranges :=
  ⟨(insertRange lo hi newRange node g.list).2,
    g.answers ++ [.outcome (insertRange lo hi newRange node g.list).1]⟩

def Ranges.step (g : Ranges) : RangeOp → Ranges
  | .insert lo hi newRange node => g.insert lo hi newRange node
  | .free val newRange node => g.insert val val newRange node
  | .alloc => ⟨(Thread.rflAlloc g.list).2, g.answers ++ [.number (Thread.rflAlloc g.list).1]⟩

/-- `sys$alloc` answers with memory that is not in use. -/
def Fresh (newRange node : Nat) (m : Memory) : Prop :=
  (newRange ≠ 0 → newRange ∉ m.cells.live) ∧ (node ≠ 0 → node ∉ m.cells.live ∧ node ≠ newRange)

def Legal (op : RangeOp) (s : RflRun) : Prop :=
  match op with
  | .insert _ _ newRange node | .free _ newRange node => Fresh newRange node s.mem
  | .alloc => True

instance (newRange node : Nat) (m : Memory) : Decidable (Fresh newRange node m) :=
  inferInstanceAs (Decidable (_ ∧ _))

instance (op : RangeOp) (s : RflRun) : Decidable (Legal op s) :=
  match op with
  | .insert _ _ newRange node => inferInstanceAs (Decidable (Fresh newRange node s.mem))
  | .free _ newRange node => inferInstanceAs (Decidable (Fresh newRange node s.mem))
  | .alloc => inferInstanceAs (Decidable True)

/-- The ranges, when the cells are followed one by one. -/
def Memory.read (m : Memory) (root fuel : Nat) : Option (List Range) :=
  (walk m.cells.links.next root fuel (m.cells.links.next root)).map fun v => v.map m.rangeOf

def Agrees (root : Nat) (s : RflRun) (g : Ranges) : Prop :=
  (∃ v, Holds root s.mem g.list v) ∧ s.answers = g.answers

section

variable {root : Nat} {s : RflRun} {g : Ranges}

theorem Agrees.insert (h : Agrees root s g) {lo hi newRange node : Nat}
    (hfresh : Fresh newRange node s.mem) :
    ∃ s', s.answer (rflInsertRange root lo hi newRange node (s.mem.cells.live.length + 1) s.mem) =
      .ok s' ∧ Agrees root s' (g.insert lo hi newRange node) := by
  obtain ⟨⟨v, hholds⟩, hanswers⟩ := h
  obtain ⟨m', v', hrun, hholds'⟩ := rflInsertRange_spec lo hi hholds hholds.length_lt
    hfresh.1 hfresh.2
  rw [hrun]
  exact ⟨_, rfl, ⟨v', hholds'⟩, by rw [hanswers]; rfl⟩

/-- **One call.** -/
theorem step_agrees (op : RangeOp) (s : RflRun) (g : Ranges) (h : Agrees root s g) (hop : Legal op s) :
    ∃ s', step root op s = .ok s' ∧ Agrees root s' (g.step op) := by
  cases op with
  | insert lo hi newRange node => exact h.insert hop
  | free val newRange node => exact h.insert hop
  | alloc =>
    obtain ⟨⟨v, hholds⟩, hanswers⟩ := h
    obtain ⟨m', v', hrun, hholds'⟩ := rflAlloc_spec hholds
    rw [step, hrun]
    exact ⟨_, rfl, ⟨v', hholds'⟩, by rw [hanswers]; rfl⟩

end

/-! ### Numbers that are lost -/

/-- The set has a number next to `[lo, hi]`. -/
def Beside (lo hi : Nat) (list : List Range) : Prop := Within (lo - 1) list ∨ Within (hi + 1) list

/-- A range is made larger exactly if there is a number of the set next to the new ones. -/
theorem rflScan_length {lo hi : Nat} (hlo : 0 < lo) (hle : lo ≤ hi) (hhi : hi + 1 < wordSize) :
    ∀ {list list' : List Range}, RangeInv list → (∀ n, lo ≤ n → n ≤ hi → ¬ Within n list) →
      rflScan lo hi list = some list' → (list'.length ≤ list.length ↔ Beside lo hi list) := by
  have hadd : wordAdd hi 1 = hi + 1 := wordAdd_one hhi
  have hsub : wordSub lo 1 = lo - 1 := wordSub_one hlo (by omega)
  intro list
  induction list with
  | nil =>
    intro list' _ _ hscan
    obtain rfl := Option.some.inj hscan
    refine iff_of_false (by simp) ?_
    rintro (h | h)
    · exact within_nil h
    · exact within_nil h
  | cons r rest ih =>
    intro list' hinv hdisjoint hscan
    obtain ⟨⟨hproper, -⟩, hbeyond, hrest⟩ := rangeInv_cons.mp hinv
    have hr : hi < r.lo ∨ r.hi < lo := by
      by_contra hcon
      rw [not_or, Nat.not_lt, Nat.not_lt] at hcon
      exact hdisjoint (max lo r.lo) (le_max_left _ _) (max_le hle hcon.1)
        (within_cons.mpr (.inl ⟨le_max_right _ _, max_le hcon.2 hproper⟩))
    have hoverlap : ¬ ((lo ≥ r.lo ∧ lo ≤ r.hi) ∨ (hi ≥ r.lo ∧ hi ≤ r.hi)) := by omega
    rw [rflScan, if_neg hoverlap, hadd, hsub] at hscan
    rw [Beside, within_cons, within_cons]
    by_cases hbefore : r.lo = hi + 1
    · rw [if_pos hbefore] at hscan
      obtain rfl := Option.some.inj hscan
      exact iff_of_true le_rfl (.inr (.inl ⟨hbefore.le, by omega⟩))
    rw [if_neg hbefore] at hscan
    by_cases hafter : r.hi = lo - 1
    · rw [if_pos hafter] at hscan
      obtain rfl := Option.some.inj hscan
      refine iff_of_true ?_ (.inl (.inl ⟨by omega, hafter.ge⟩))
      cases rest with
      | nil => exact le_rfl
      | cons next rest =>
        rw [rflExtend]
        split <;> simp
    rw [if_neg hafter] at hscan
    have hfar : ∀ n, Within n rest → r.hi + 1 < n := fun n hn => hinv.beyond hn
    by_cases hplace : r.lo > hi
    · rw [if_pos hplace] at hscan
      obtain rfl := Option.some.inj hscan
      refine iff_of_false (by simp) ?_
      rintro ((h | h) | (h | h))
      · omega
      · have := hfar _ h
        omega
      · omega
      · have := hfar _ h
        omega
    rw [if_neg hplace] at hscan
    cases hrec : rflScan lo hi rest with
    | none =>
      rw [hrec] at hscan
      cases hscan
    | some list₁ =>
      rw [hrec] at hscan
      obtain rfl := Option.some.inj hscan
      have hmore := ih hrest (fun n h1 h2 h3 => hdisjoint n h1 h2 (within_cons.mpr (.inr h3))) hrec
      rw [List.length_cons, List.length_cons, Nat.succ_le_succ_iff, hmore, Beside]
      have hlow : ¬ (r.lo ≤ lo - 1 ∧ lo - 1 ≤ r.hi) := by omega
      have hhigh : ¬ (r.lo ≤ hi + 1 ∧ hi + 1 ≤ r.hi) := by omega
      rw [or_iff_right hlow, or_iff_right hhigh]

/-- A list of one range, from 3 to 5. -/
def threeToFive : Memory :=
  ⟨⟨(⟨fun p => p, fun p => p⟩ : Links Nat).between 8 8 16, fun p => if p = 16 then 32 else 0,
    [8, 16, 32]⟩, fun _ => ⟨3, 5⟩⟩

end RangeCells

open RangeCells

/-- **The free list in memory.**  From a new list on, and whenever `sys$alloc` has nothing: every
    sequence of calls goes through, no memory is used that is not there or freed twice, and the answers
    and the ranges are those of the list of ranges. -/
theorem rfl_memory_right (links : Links Nat) (data : Nat → Nat) (range : Nat → Range) (root : Nat)
    (hroot : root ≠ 0) (ops : List RangeOp)
    (hlegal : ∀ c, llNew root ⟨links, data, []⟩ = .ok (c, root) →
      Along (RangeCells.step root) Legal ops ⟨⟨c, range⟩, []⟩) :
    ∃ c s, llNew root ⟨links, data, []⟩ = .ok (c, root) ∧
      runs (RangeCells.step root) ops ⟨⟨c, range⟩, []⟩ = .ok s ∧
      s.answers = (ops.foldl Ranges.step ⟨[], []⟩).answers ∧
      ∀ fuel, (ops.foldl Ranges.step ⟨[], []⟩).list.length < fuel →
        s.mem.read root fuel = some (ops.foldl Ranges.step ⟨[], []⟩).list := by
  have hnew := llNew_eq (c := ⟨links, data, []⟩) hroot
  have hempty : RangeCells.Holds root ⟨⟨links.single root, Function.update data root 0, [root]⟩, range⟩ [] [] := by
    refine ⟨⟨Function.update_self _ _ _, Function.update_self _ _ _, List.nodup_singleton _⟩,
      Function.update_self _ _ _, rfl, List.nodup_singleton _, fun p hp => hp, List.not_mem_nil⟩
  obtain ⟨s, hrun, ⟨v, hholds⟩, hanswers⟩ := runs_simulates (f := Ranges.step) step_agrees ops
    ⟨⟨_, range⟩, []⟩ ⟨[], []⟩ ⟨⟨[], hempty⟩, rfl⟩ (hlegal _ hnew)
  refine ⟨_, s, hnew, hrun, hanswers, fun fuel hfuel => ?_⟩
  rw [← hholds.ranges, List.length_map] at hfuel
  rw [Memory.read, (hholds.ring.walk hfuel).1, Option.map_some, hholds.ranges]

/-- Three numbers come back: there is no memory for the first, none for the cell of the second, and the
    third closes the gap between two ranges. -/
def lostNumbers : List RangeOp :=
  [.insert 1 2 16 32, .alloc, .insert 12 15 48 64, .free 20 0 0, .free 20 80 0, .insert 4 10 112 96,
    .free 11 0 0, .alloc, .alloc]

theorem lostNumbers_right :
    (lostNumbers.foldl Ranges.step ⟨[], []⟩).list = [⟨5, 15⟩] ∧
      ∃ c s, llNew 8 ⟨⟨fun p => p, fun p => p⟩, fun _ => 7, []⟩ = .ok (c, 8) ∧
        runs (RangeCells.step 8) lostNumbers ⟨⟨c, fun _ => ⟨0, 0⟩⟩, []⟩ = .ok s ∧
        s.answers = (lostNumbers.foldl Ranges.step ⟨[], []⟩).answers ∧
        ∀ fuel, (lostNumbers.foldl Ranges.step ⟨[], []⟩).list.length < fuel →
          s.mem.read 8 fuel = some (lostNumbers.foldl Ranges.step ⟨[], []⟩).list := by
  refine ⟨by decide +kernel, rfl_memory_right ⟨fun p => p, fun p => p⟩ (fun _ => 7) (fun _ => ⟨0, 0⟩) 8
    (by decide) lostNumbers fun c hc => ?_⟩
  obtain rfl := (Prod.mk.inj (Except.ok.inj ((llNew_eq (by decide)).symm.trans hc))).1
  decide +kernel

end FreeVMS.Thread
