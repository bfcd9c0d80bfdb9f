import FreeVMS.Lib.Run
import FreeVMS.Lib.TwoWayRing

/-!
# Lists of the executive

`sys_lists.c`: a list is a ring of cells with its `struct double_list` as its head, `head` where the
cells have `next` and `tail` where they have `prev`.  A cell is deleted without the list it is in.
Whatever is done to the lists, each of them is the sequence that its own insertions and deletions
leave, read from either end.
-/

namespace FreeVMS.Thread

open Run LinkRing

namespace Linked

inductive ListFault where
  /-- a cell is used or freed that is not there -/
  | dead (p : Nat)
  /-- a loop does not end -/
  | diverge
deriving DecidableEq, Repr

/-- The cells and the heads; 0 is `NULL`.  `live` are those that are there. -/
structure Cells where
  links : Links Nat
  data : Nat → Nat
  live : List Nat

namespace Cells

/-- `p->next`, or `p->head` -/
def next (c : Cells) (p : Nat) : Except ListFault Nat :=
  if p ∈ c.live then .ok (c.links.next p) else .error (.dead p)

/-- `p->prev`, or `p->tail` -/
def prev (c : Cells) (p : Nat) : Except ListFault Nat :=
  if p ∈ c.live then .ok (c.links.prev p) else .error (.dead p)

/-- `p->next = q` -/
def setNext (c : Cells) (p q : Nat) : Except ListFault Cells :=
  if p ∈ c.live then .ok { c with links := { c.links with next := Function.update c.links.next p q } }
  else .error (.dead p)

/-- `p->prev = q` -/
def setPrev (c : Cells) (p q : Nat) : Except ListFault Cells :=
  if p ∈ c.live then .ok { c with links := { c.links with prev := Function.update c.links.prev p q } }
  else .error (.dead p)

/-- `p->data = q` -/
def setData (c : Cells) (p q : Nat) : Except ListFault Cells :=
  if p ∈ c.live then .ok { c with data := Function.update c.data p q } else .error (.dead p)

/-- `sys$alloc` answers `p`. -/
def alloc (c : Cells) (p : Nat) : Cells := { c with live := p :: c.live }

/-- `sys$free` -/
def free (c : Cells) (p : Nat) : Except ListFault Cells :=
  if p ∈ c.live then .ok { c with live := c.live.filter fun q => q ≠ p } else .error (.dead p)

end Cells

/-- `dl_list_init`; the head is there from now on. -/
def dlListInit (dl : Nat) (c : Cells) : Except ListFault Cells := do
  let c ← (c.alloc dl).setNext dl dl
  c.setPrev dl dl

/-- `dl_list_create_front`, where `sys$alloc` answers `n`. -/
def dlListCreateFront (dl n : Nat) (c : Cells) : Except ListFault (Cells × Nat) :=
  if n = 0 then .ok (c, 0) else do
    let c ← (c.alloc n).setPrev n dl
    let c ← c.setPrev (← c.next dl) n
    let c ← c.setNext n (← c.next dl)
    let c ← c.setNext dl n
    return (c, n + 16)

/-- `dl_list_create_back` -/
def dlListCreateBack (dl n : Nat) (c : Cells) : Except ListFault (Cells × Nat) :=
  if n = 0 then .ok (c, 0) else do
    let c ← (c.alloc n).setNext n dl
    let c ← c.setNext (← c.prev dl) n
    let c ← c.setPrev n (← c.prev dl)
    let c ← c.setPrev dl n
    return (c, n + 16)

/-- `ll_new` -/
def llNew (n : Nat) (c : Cells) : Except ListFault (Cells × Nat) :=
  if n = 0 then .ok (c, 0) else do
    let c ← (c.alloc n).setNext n n
    let c ← c.setPrev n n
    let c ← c.setData n 0
    return (c, n)

/-- `ll_delete` -/
def llDelete (ll : Nat) (c : Cells) : Except ListFault (Cells × Nat) := do
  let next ← c.next ll
  let c ← c.setPrev (← c.next ll) (← c.prev ll)
  let c ← c.setNext (← c.prev ll) (← c.next ll)
  let c ← c.free ll
  return (c, next)

/-- `ll_insert_before` -/
def llInsertBefore (ll data n : Nat) (c : Cells) : Except ListFault (Cells × Nat) :=
  if n = 0 then .ok (c, 0) else do
    let c ← (c.alloc n).setNext n ll
    let c ← c.setNext (← c.prev ll) n
    let c ← c.setPrev n (← c.prev ll)
    let c ← c.setPrev ll n
    let c ← c.setData n data
    return (c, n)

/-! ### What the code does to the links -/

section

variable {c : Cells} {n dl ll data : Nat}

/-- A cell at the front goes in between the head and its successor. -/
theorem dlListCreateFront_eq (hn : n ≠ 0) (hdl : dl ∈ c.live) (hhead : c.links.next dl ∈ c.live) :
    dlListCreateFront dl n c =
      .ok ({ c with links := c.links.between dl (c.links.next dl) n, live := n :: c.live }, n + 16) := by
  rw [dlListCreateFront, if_neg hn]
  simp only [Cells.alloc, Cells.setPrev, Cells.setNext, Cells.next, List.mem_cons, true_or, hdl, hhead,
    or_true, if_true, bind, Except.bind]
  rfl

/-- A cell at the back goes in between the last one and the head. -/
theorem dlListCreateBack_eq (hn : n ≠ 0) (hdl : dl ∈ c.live) (htail : c.links.prev dl ∈ c.live) :
    dlListCreateBack dl n c =
      .ok ({ c with links := c.links.between (c.links.prev dl) dl n, live := n :: c.live }, n + 16) := by
  rw [dlListCreateBack, if_neg hn]
  simp only [Cells.alloc, Cells.setPrev, Cells.setNext, Cells.prev, List.mem_cons, true_or, hdl, htail,
    or_true, if_true, bind, Except.bind]
  rfl

theorem llInsertBefore_eq (hn : n ≠ 0) (hll : ll ∈ c.live) (hprev : c.links.prev ll ∈ c.live) :
    llInsertBefore ll data n c =
      .ok ({ c with
        links := c.links.between (c.links.prev ll) ll n
        data := Function.update c.data n data
        live := n :: c.live }, n) := by
  rw [llInsertBefore, if_neg hn]
  simp only [Cells.alloc, Cells.setPrev, Cells.setNext, Cells.setData, Cells.prev, List.mem_cons, true_or,
    hll, hprev, or_true, if_true, bind, Except.bind]
  rfl

/-- A cell that is not its own successor is taken out. -/
theorem llDelete_eq (hll : ll ∈ c.live) (hnext : c.links.next ll ∈ c.live)
    (hprev : c.links.prev ll ∈ c.live) (hne : ll ≠ c.links.next ll) :
    llDelete ll c =
      .ok ({ c with
        links := c.links.unlink ll
        live := c.live.filter fun q => q ≠ ll }, c.links.next ll) := by
  rw [llDelete]
  simp only [Cells.setPrev, Cells.setNext, Cells.next, Cells.prev, Cells.free, hll, hnext, hprev,
    Function.update_of_ne hne, if_true, bind, Except.bind]
  rfl

/-- A new head has an empty ring. -/
theorem dlListInit_eq : dlListInit dl c =
    .ok { c with links := c.links.single dl, live := dl :: c.live } := by
  rw [dlListInit]
  simp only [Cells.alloc, Cells.setPrev, Cells.setNext, List.mem_cons, true_or, if_true, bind, Except.bind]
  rfl

theorem llNew_eq (hn : n ≠ 0) : llNew n c =
    .ok ({ c with
      links := c.links.single n
      data := Function.update c.data n 0
      live := n :: c.live }, n) := by
  rw [llNew, if_neg hn]
  simp only [Cells.alloc, Cells.setPrev, Cells.setNext, Cells.setData, List.mem_cons, true_or, if_true,
    bind, Except.bind]
  rfl

end

/-! ### The sequences -/

/-- The heads, the cells of each list, and the answers so far. -/
structure Sequences where
  heads : List Nat
  cells : Nat → List Nat
  answers : List Nat

inductive ListOp where
  | init (dl : Nat)
  | front (dl n : Nat)
  | back (dl n : Nat)
  | new (n : Nat)
  | before (ll data n : Nat)
  | delete (ll : Nat)
deriving DecidableEq, Repr

/-- `n` comes before `ll`, which is a cell of the list `l` or its head `h`. -/
def insertBefore (ll n h : Nat) (l : List Nat) : List Nat :=
  if h = ll then l ++ [n] else l.flatMap fun x => if x = ll then [n, x] else [x]

/-- What comes after `ll` in the list that it is in. -/
def Sequences.after (g : Sequences) (ll : Nat) : Nat :=
  match g.heads.find? fun h => ll ∈ g.cells h with
  | some h => firstOf ((g.cells h).dropWhile fun x => x ≠ ll).tail h
  | none => 0

/-- What the calls are for.  Nothing happens where `sys$alloc` answers `NULL`. -/
def Sequences.step (g : Sequences) : ListOp → Sequences
  | .init dl => { g with heads := dl :: g.heads, cells := Function.update g.cells dl [] }
  | .front dl n => if n = 0 then { g with answers := g.answers ++ [0] } else { g with
      cells := Function.update g.cells dl (n :: g.cells dl)
      answers := g.answers ++ [n + 16] }
  | .back dl n => if n = 0 then { g with answers := g.answers ++ [0] } else { g with
      cells := Function.update g.cells dl (g.cells dl ++ [n])
      answers := g.answers ++ [n + 16] }
  | .new n => if n = 0 then { g with answers := g.answers ++ [0] } else {
      heads := n :: g.heads
      cells := Function.update g.cells n []
      answers := g.answers ++ [n] }
  | .before ll _ n => if n = 0 then { g with answers := g.answers ++ [0] } else { g with
      cells := fun h => insertBefore ll n h (g.cells h)
      answers := g.answers ++ [n] }
  | .delete ll => { g with
      cells := fun h => (g.cells h).filter fun x => x ≠ ll
      answers := g.answers ++ [g.after ll] }

/-- The state of the code, and the answers so far. -/
structure Memory where
  cells : Cells
  answers : List Nat

def Memory.answer (s : Memory) (r : Except ListFault (Cells × Nat)) : Except ListFault Memory :=
  r.map fun (c, a) => ⟨c, s.answers ++ [a]⟩

def step (op : ListOp) (s : Memory) : Except ListFault Memory :=
  match op with
  | .init dl => (dlListInit dl s.cells).map fun c => { s with cells := c }
  | .front dl n => s.answer (dlListCreateFront dl n s.cells)
  | .back dl n => s.answer (dlListCreateBack dl n s.cells)
  | .new n => s.answer (llNew n s.cells)
  | .before ll data n => s.answer (llInsertBefore ll data n s.cells)
  | .delete ll => s.answer (llDelete ll s.cells)

/-- What callers keep to: a list is used after it has been made, a cell as long as it is in a list, and
    `sys$alloc` answers with memory that is in no list. -/
def Sequences.Legal (op : ListOp) (g : Sequences) : Prop :=
  match op with
  | .init dl => ∀ h ∈ g.heads, dl ∉ h :: g.cells h
  | .front dl n | .back dl n => dl ∈ g.heads ∧ (n ≠ 0 → ∀ h ∈ g.heads, n ∉ h :: g.cells h)
  | .new n => n ≠ 0 → ∀ h ∈ g.heads, n ∉ h :: g.cells h
  | .before ll _ n => (∃ h ∈ g.heads, ll ∈ h :: g.cells h) ∧ (n ≠ 0 → ∀ h ∈ g.heads, n ∉ h :: g.cells h)
  | .delete ll => ∃ h ∈ g.heads, ll ∈ g.cells h

/-- The memory holds the sequences. -/
structure Holds (s : Memory) (g : Sequences) : Prop where
  family : Family s.cells.links g.heads g.cells
  live : ∀ h ∈ g.heads, ∀ x ∈ h :: g.cells h, x ∈ s.cells.live
  answers : s.answers = g.answers

section

variable {s : Memory} {g : Sequences} {h ll n : Nat} {l r : List Nat}

theorem insertBefore_of_not_mem (hll : ll ∉ h :: l) : insertBefore ll n h l = l := by
  have hl := List.not_mem_of_not_mem_cons hll
  rw [insertBefore, if_neg (List.ne_of_not_mem_cons hll).symm]
  clear hll
  induction l with
  | nil => rfl
  | cons x l ih =>
    rw [List.flatMap_cons, if_neg (List.ne_of_not_mem_cons hl).symm, ih (List.not_mem_of_not_mem_cons hl),
      List.singleton_append]

theorem insertBefore_split (hnodup : (h :: (l ++ ll :: r)).Nodup) :
    insertBefore ll n h (l ++ ll :: r) = l ++ n :: ll :: r := by
  obtain ⟨hh, hnodup⟩ := List.nodup_cons.mp hnodup
  have hne : h ≠ ll := fun heq => hh (heq ▸ List.mem_append_right l List.mem_cons_self)
  obtain ⟨-, hr, hdisjoint⟩ := List.nodup_append.mp hnodup
  have hl : ll ∉ h :: l := by
    refine List.not_mem_cons_of_ne_of_not_mem (Ne.symm hne) fun hmem => ?_
    exact hdisjoint ll hmem ll List.mem_cons_self rfl
  have hr' : ll ∉ h :: r :=
    List.not_mem_cons_of_ne_of_not_mem (Ne.symm hne) (List.nodup_cons.mp hr).1
  have hfront : l.flatMap (fun x => if x = ll then [n, x] else [x]) = l := by
    have hkeep := insertBefore_of_not_mem (n := n) hl
    rwa [insertBefore, if_neg hne] at hkeep
  have hback : r.flatMap (fun x => if x = ll then [n, x] else [x]) = r := by
    have hkeep := insertBefore_of_not_mem (n := n) hr'
    rwa [insertBefore, if_neg hne] at hkeep
  rw [insertBefore, if_neg hne, List.flatMap_append, List.flatMap_cons, if_pos rfl, hfront, hback]
  rfl

theorem filter_split (hnodup : (l ++ ll :: r).Nodup) :
    (l ++ ll :: r).filter (fun x => x ≠ ll) = l ++ r := by
  obtain ⟨-, hr, hdisjoint⟩ := List.nodup_append.mp hnodup
  rw [List.filter_append, List.filter_cons_of_neg (by simp), List.filter_eq_self.mpr, List.filter_eq_self.mpr]
  · exact fun x hx => by simpa using ne_of_mem_of_not_mem hx (List.nodup_cons.mp hr).1
  · exact fun x hx => by simpa using hdisjoint x hx ll List.mem_cons_self

/-- The successor in the list that the cell is in. -/
theorem Holds.after (hs : Holds s g) (hh : h ∈ g.heads) (hsplit : g.cells h = l ++ ll :: r) :
    g.after ll = firstOf r h := by
  have hmem : ll ∈ g.cells h := by
    rw [hsplit]
    exact List.mem_append_right l List.mem_cons_self
  have hfind : g.heads.find? (fun h => ll ∈ g.cells h) = some h := by
    cases hfind : g.heads.find? fun h => ll ∈ g.cells h with
    | none => exact absurd (by simpa using hmem) (List.find?_eq_none.mp hfind h hh)
    | some h' =>
      have hin : ll ∈ g.cells h' := by simpa using List.find?_some hfind
      by_contra hne
      have hne' : h' ≠ h := fun heq => hne (congrArg some heq)
      exact hs.family.apart h' (List.mem_of_find?_eq_some hfind) h hh hne' ll
        (List.mem_cons_of_mem _ hin) (List.mem_cons_of_mem _ hmem)
  have hnodup := (List.nodup_cons.mp (hs.family.ring h hh).nodup).2
  rw [hsplit] at hnodup
  have hdrop : (l ++ ll :: r).dropWhile (fun x => x ≠ ll) = ll :: r := by
    rw [List.dropWhile_append_of_pos]
    · rw [List.dropWhile_cons_of_neg (by simp)]
    · exact fun x hx => by simpa using (List.nodup_append.mp hnodup).2.2 x hx ll List.mem_cons_self
  rw [Sequences.after, hfind]
  simp only [hsplit, hdrop, List.tail_cons]

/-- The neighbours are there. -/
theorem Holds.first_live (hs : Holds s g) (hh : h ∈ g.heads) (hsplit : g.cells h = l ++ r) :
    firstOf r h ∈ s.cells.live := by
  refine hs.live h hh _ ?_
  rw [hsplit]
  rcases List.mem_cons.mp (firstOf_mem r h) with heq | hmem
  · rw [heq]
    exact List.mem_cons_self
  · exact List.mem_append_right (h :: l) hmem

theorem Holds.last_live (hs : Holds s g) (hh : h ∈ g.heads) (hsplit : g.cells h = l ++ r) :
    lastOf h l ∈ s.cells.live := by
  refine hs.live h hh _ ?_
  rw [hsplit]
  exact List.mem_append_left r (lastOf_mem h l)

/-- A cell more in one of the lists. -/
theorem Holds.between (hs : Holds s g) (hh : h ∈ g.heads) (hsplit : g.cells h = l ++ r)
    (hn : ∀ h ∈ g.heads, n ∉ h :: g.cells h) {cells : Nat → List Nat} {data : Nat → Nat} {a : Nat}
    (hcells : ∀ h' ∈ g.heads, cells h' = Function.update g.cells h (l ++ n :: r) h') :
    Holds ⟨⟨s.cells.links.between (lastOf h l) (firstOf r h) n, data, n :: s.cells.live⟩, s.answers ++ [a]⟩
      { g with cells := cells, answers := g.answers ++ [a] } := by
  refine ⟨(hs.family.between hh hsplit hn).congr hcells, fun h' hh' x hx => ?_, by rw [hs.answers]⟩
  have hx : x ∈ h' :: cells h' := hx
  rw [hcells h' hh'] at hx
  by_cases heq : h' = h
  · subst heq
    rw [Function.update_self] at hx
    have hor : x = n ∨ x ∈ h' :: g.cells h' := by
      rw [hsplit]
      simp only [List.mem_cons, List.mem_append] at hx ⊢
      tauto
    rcases hor with rfl | hold
    · exact List.mem_cons_self
    · exact List.mem_cons_of_mem _ (hs.live h' hh' x hold)
  · rw [Function.update_of_ne heq] at hx
    exact List.mem_cons_of_mem _ (hs.live h' hh' x hx)

/-- Nothing happens but an answer. -/
theorem Holds.answer (hs : Holds s g) (a : Nat) :
    Holds { s with answers := s.answers ++ [a] } { g with answers := g.answers ++ [a] } :=
  ⟨hs.family, hs.live, by rw [hs.answers]⟩

/-- A head more. -/
theorem Holds.single (data : Nat → Nat) (answers : List Nat) (hs : Holds s g)
    (hn : ∀ h ∈ g.heads, n ∉ h :: g.cells h) :
    Holds ⟨⟨s.cells.links.single n, data, n :: s.cells.live⟩, answers⟩
      ⟨n :: g.heads, Function.update g.cells n [], answers⟩ := by
  refine ⟨hs.family.single hn, fun h' hh' x hx => ?_, rfl⟩
  have hx : x ∈ h' :: Function.update g.cells n [] h' := hx
  by_cases heq : h' = n
  · subst heq
    rw [Function.update_self, List.mem_singleton] at hx
    exact hx ▸ List.mem_cons_self
  · rw [Function.update_of_ne heq] at hx
    exact List.mem_cons_of_mem _ (hs.live h' (List.mem_of_ne_of_mem heq hh') x hx)

/-- A call that gets a cell, which goes into the list `h`. -/
theorem Holds.insert (data : Nat → Nat) (hs : Holds s g) (hh : h ∈ g.heads)
    (hsplit : g.cells h = l ++ r) (hn : ∀ h ∈ g.heads, n ∉ h :: g.cells h) {a : Nat}
    {code : Except ListFault (Cells × Nat)}
    (hcode : code = .ok
      (⟨s.cells.links.between (lastOf h l) (firstOf r h) n, data, n :: s.cells.live⟩, a))
    {cells : Nat → List Nat}
    (hcells : ∀ h' ∈ g.heads, cells h' = Function.update g.cells h (l ++ n :: r) h') :
    ∃ s', s.answer code = .ok s' ∧ Holds s' { g with cells := cells, answers := g.answers ++ [a] } := by
  rw [hcode]
  exact ⟨_, rfl, hs.between hh hsplit hn hcells⟩

/-- **One call.** -/
theorem step_holds (op : ListOp) (s : Memory) (g : Sequences) (hs : Holds s g) (hop : g.Legal op) :
    ∃ s', step op s = .ok s' ∧ Holds s' (g.step op) := by
  cases op with
  | init dl =>
    refine ⟨_, congrArg (Except.map _) dlListInit_eq, ?_⟩
    have hnew := hs.single s.cells.data s.answers hop
    exact ⟨hnew.family, hnew.live, hs.answers⟩
  | front dl n =>
    obtain ⟨hdl, hn⟩ := hop
    by_cases hn0 : n = 0
    · rw [Sequences.step, if_pos hn0, step, dlListCreateFront, if_pos hn0]
      exact ⟨_, rfl, hs.answer 0⟩
    rw [Sequences.step, if_neg hn0, step]
    have hring := hs.family.ring dl hdl
    have hnext : s.cells.links.next dl = firstOf (g.cells dl) dl := hring.next.next_eq
    refine hs.insert (l := []) (r := g.cells dl) s.cells.data hdl rfl (hn hn0) ?_ fun h _ => rfl
    have hhead : s.cells.links.next dl ∈ s.cells.live := by
      rw [hnext]
      exact hs.first_live (l := []) hdl rfl
    rw [dlListCreateFront_eq hn0 (hs.live dl hdl dl List.mem_cons_self) hhead, hnext]
    rfl
  | back dl n =>
    obtain ⟨hdl, hn⟩ := hop
    by_cases hn0 : n = 0
    · rw [Sequences.step, if_pos hn0, step, dlListCreateBack, if_pos hn0]
      exact ⟨_, rfl, hs.answer 0⟩
    rw [Sequences.step, if_neg hn0, step]
    have hsplit : g.cells dl = g.cells dl ++ [] := (List.append_nil _).symm
    have hprev : s.cells.links.prev dl = lastOf dl (g.cells dl) := (hs.family.ring dl hdl).hangs.last
    refine hs.insert (l := g.cells dl) (r := []) s.cells.data hdl hsplit (hn hn0) ?_ fun h _ => rfl
    have htail : s.cells.links.prev dl ∈ s.cells.live := by
      rw [hprev]
      exact hs.last_live hdl hsplit
    rw [dlListCreateBack_eq hn0 (hs.live dl hdl dl List.mem_cons_self) htail, hprev]
    rfl
  | new n =>
    by_cases hn0 : n = 0
    · rw [Sequences.step, if_pos hn0, step, llNew, if_pos hn0]
      exact ⟨_, rfl, hs.answer 0⟩
    rw [Sequences.step, if_neg hn0, step, llNew_eq hn0]
    have hnew := hs.single (Function.update s.cells.data n 0) (s.answers ++ [n]) (hop hn0)
    exact ⟨_, rfl, hnew.family, hnew.live, by rw [hs.answers]⟩
  | before ll data n =>
    obtain ⟨⟨h, hh, hll⟩, hn⟩ := hop
    by_cases hn0 : n = 0
    · rw [Sequences.step, if_pos hn0, step, llInsertBefore, if_pos hn0]
      exact ⟨_, rfl, hs.answer 0⟩
    rw [Sequences.step, if_neg hn0, step]
    have hring := hs.family.ring h hh
    have hlive := hs.live h hh ll hll
    -- the other lists do not have the cell
    have hothers : ∀ h' ∈ g.heads, h' ≠ h → insertBefore ll n h' (g.cells h') = g.cells h' :=
      fun h' hh' hne => insertBefore_of_not_mem (hs.family.apart h hh h' hh' (Ne.symm hne) ll hll)
    obtain ⟨l, r, hsplit, hfirst, hinsert⟩ : ∃ l r, g.cells h = l ++ r ∧ firstOf r h = ll ∧
        insertBefore ll n h (g.cells h) = l ++ n :: r := by
      rcases List.mem_cons.mp hll with rfl | hmem
      · refine ⟨g.cells ll, [], (List.append_nil _).symm, rfl, ?_⟩
        exact if_pos rfl
      · obtain ⟨l, r, hsplit⟩ := List.append_of_mem hmem
        refine ⟨l, ll :: r, hsplit, rfl, ?_⟩
        rw [hsplit]
        exact insertBefore_split (hsplit ▸ hring.nodup)
    have hprev : s.cells.links.prev ll = lastOf h l := by
      rw [hsplit] at hring
      rw [← hfirst]
      exact hring.prev_first
    refine hs.insert (l := l) (r := r) (Function.update s.cells.data n data) hh hsplit (hn hn0) ?_
      fun h' hh' => ?_
    · have hback : s.cells.links.prev ll ∈ s.cells.live := by
        rw [hprev]
        exact hs.last_live hh hsplit
      rw [llInsertBefore_eq hn0 hlive hback, hprev, hfirst]
    · by_cases heq : h' = h
      · subst heq
        rw [Function.update_self]
        exact hinsert
      · rw [Function.update_of_ne heq]
        exact hothers h' hh' heq
  | delete ll =>
    obtain ⟨h, hh, hll⟩ := hop
    obtain ⟨l, r, hsplit⟩ := List.append_of_mem hll
    have hring := hs.family.ring h hh
    rw [hsplit] at hring
    have hsplit' : g.cells h = (l ++ [ll]) ++ r := by
      rw [hsplit, List.append_assoc, List.singleton_append]
    have hnext : s.cells.links.next ll = firstOf r h := hring.next_cell
    have hprev : s.cells.links.prev ll = lastOf h l := hring.prev_cell
    have hne : ll ≠ s.cells.links.next ll := by
      rw [hnext]
      rintro heq
      have hnodup := hring.nodup
      rcases List.mem_cons.mp (firstOf_mem r h) with hr | hr
      · rw [hr] at heq
        exact (List.nodup_cons.mp hnodup).1 (heq ▸ List.mem_append_right l List.mem_cons_self)
      · rw [← heq] at hr
        exact (List.nodup_cons.mp (List.nodup_append.mp (List.nodup_cons.mp hnodup).2).2.1).1 hr
    rw [step, llDelete_eq (hs.live h hh ll (List.mem_cons_of_mem _ hll))
      (by rw [hnext]; exact hs.first_live hh hsplit') (by rw [hprev]; exact hs.last_live hh hsplit) hne]
    refine ⟨_, rfl, ?_⟩
    have hcells : ∀ h' ∈ g.heads, (g.cells h').filter (fun x => x ≠ ll) =
        Function.update g.cells h (l ++ r) h' := by
      intro h' hh'
      by_cases heq : h' = h
      · subst heq
        rw [Function.update_self, hsplit]
        exact filter_split (List.nodup_cons.mp hring.nodup).2
      · rw [Function.update_of_ne heq]
        refine List.filter_eq_self.mpr fun x hx => ?_
        have hno := hs.family.apart h hh h' hh' (Ne.symm heq) ll (List.mem_cons_of_mem _ hll)
        simpa using ne_of_mem_of_not_mem (List.mem_cons_of_mem _ hx) hno
    refine ⟨(hs.family.unlink hh hsplit).congr hcells, fun h' hh' x hx => ?_, ?_⟩
    · have hne' : x ≠ ll := by
        rcases List.mem_cons.mp hx with rfl | hx
        · by_cases heq : x = h
          · subst heq
            exact fun heq => (List.nodup_cons.mp hring.nodup).1
              (heq ▸ List.mem_append_right l List.mem_cons_self)
          · exact fun heq' => hs.family.apart h hh x hh' (Ne.symm heq) ll (List.mem_cons_of_mem _ hll)
              (heq' ▸ List.mem_cons_self)
        · simpa using (List.mem_filter.mp hx).2
      refine List.mem_filter.mpr ⟨hs.live h' hh' x ?_, by simpa using hne'⟩
      rcases List.mem_cons.mp hx with rfl | hx
      · exact List.mem_cons_self
      · exact List.mem_cons_of_mem _ (List.mem_filter.mp hx).1
    · show s.answers ++ [s.cells.links.next ll] = g.answers ++ [g.after ll]
      rw [hs.answers, hnext, hs.after hh hsplit]

end

end Linked

open Linked

/-- **The lists are sequences.**  Whatever memory there was before: every sequence of calls goes through,
    has told what it should, and leaves in each list the sequence that its own insertions and deletions
    make, whether it is read forwards or backwards. -/
theorem lists_are_sequences (links : Links Nat) (data : Nat → Nat) (ops : List ListOp)
    (hlegal : Along (fun op g => (.ok (g.step op) : Except Empty Sequences)) (fun op g => g.Legal op) ops
      ⟨[], fun _ => [], []⟩) :
    ∃ s, runs Linked.step ops ⟨⟨links, data, []⟩, []⟩ = .ok s ∧
      s.answers = (ops.foldl Sequences.step ⟨[], fun _ => [], []⟩).answers ∧
      ∀ h ∈ (ops.foldl Sequences.step ⟨[], fun _ => [], []⟩).heads, ∀ fuel,
        ((ops.foldl Sequences.step ⟨[], fun _ => [], []⟩).cells h).length < fuel →
        walk s.cells.links.next h fuel (s.cells.links.next h) =
          some ((ops.foldl Sequences.step ⟨[], fun _ => [], []⟩).cells h) ∧
        walk s.cells.links.prev h fuel (s.cells.links.prev h) =
          some ((ops.foldl Sequences.step ⟨[], fun _ => [], []⟩).cells h).reverse := by
  have hempty : Holds ⟨⟨links, data, []⟩, []⟩ ⟨[], fun _ => [], []⟩ :=
    ⟨⟨fun _ hh => absurd hh List.not_mem_nil, fun _ hh => absurd hh List.not_mem_nil⟩,
      fun _ hh => absurd hh List.not_mem_nil, rfl⟩
  obtain ⟨s, hrun, hs⟩ := runs_refines step_holds ops _ _ hempty hlegal
  exact ⟨s, hrun, hs.answers, fun h hh fuel hfuel => (hs.family.ring h hh).walk hfuel⟩

instance Sequences.decidableLegal (g : Sequences) : ∀ op, Decidable (g.Legal op)
  | .init dl => inferInstanceAs (Decidable (∀ h ∈ g.heads, dl ∉ h :: g.cells h))
  | .front dl n => inferInstanceAs (Decidable
      (dl ∈ g.heads ∧ (n ≠ 0 → ∀ h ∈ g.heads, n ∉ h :: g.cells h)))
  | .back dl n => inferInstanceAs (Decidable
      (dl ∈ g.heads ∧ (n ≠ 0 → ∀ h ∈ g.heads, n ∉ h :: g.cells h)))
  | .new n => inferInstanceAs (Decidable (n ≠ 0 → ∀ h ∈ g.heads, n ∉ h :: g.cells h))
  | .before ll _ n => inferInstanceAs (Decidable
      ((∃ h ∈ g.heads, ll ∈ h :: g.cells h) ∧ (n ≠ 0 → ∀ h ∈ g.heads, n ∉ h :: g.cells h)))
  | .delete ll => inferInstanceAs (Decidable (∃ h ∈ g.heads, ll ∈ g.cells h))

/-- Two lists; a cell is taken out and comes back in the other one. -/
def twoLists : List ListOp :=
  [.init 100, .new 200, .back 100 16, .front 100 32, .before 200 7 48, .before 16 0 64, .delete 64,
    .front 100 0, .before 48 9 64, .delete 16, .delete 48]

theorem twoLists_are_sequences :
    ((twoLists.foldl Sequences.step ⟨[], fun _ => [], []⟩).answers =
        [200, 32, 48, 48, 64, 16, 0, 64, 100, 200] ∧
      (twoLists.foldl Sequences.step ⟨[], fun _ => [], []⟩).cells 100 = [32] ∧
      (twoLists.foldl Sequences.step ⟨[], fun _ => [], []⟩).cells 200 = [64]) ∧
    ∃ s, runs Linked.step twoLists ⟨⟨⟨fun p => p, fun _ => 5⟩, fun _ => 0, []⟩, []⟩ = .ok s ∧
      s.answers = (twoLists.foldl Sequences.step ⟨[], fun _ => [], []⟩).answers ∧
      ∀ h ∈ (twoLists.foldl Sequences.step ⟨[], fun _ => [], []⟩).heads, ∀ fuel,
        ((twoLists.foldl Sequences.step ⟨[], fun _ => [], []⟩).cells h).length < fuel →
        walk s.cells.links.next h fuel (s.cells.links.next h) =
          some ((twoLists.foldl Sequences.step ⟨[], fun _ => [], []⟩).cells h) ∧
        walk s.cells.links.prev h fuel (s.cells.links.prev h) =
          some ((twoLists.foldl Sequences.step ⟨[], fun _ => [], []⟩).cells h).reverse := by
  refine ⟨by decide, lists_are_sequences ⟨fun p => p, fun _ => 5⟩ (fun _ => 0) twoLists ?_⟩
  decide

end FreeVMS.Thread
