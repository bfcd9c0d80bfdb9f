import Mathlib.Data.List.Nodup
import Mathlib.Logic.Function.Basic
import Mathlib.Logic.Function.Iterate

/-!
# Rings of pointers

A doubly linked list whose head is one of its cells: the successor of the head is the first
cell, its predecessor the last one.  `Links.append` is the usual insertion at the end of a
list, which is an insertion before its head when the list runs through other heads too.
-/

namespace FreeVMS.LinkRing

variable {α : Type}

/-- From `a`, the successors are the cells of `l` and then `b`. -/
def Path (next : α → α) : α → List α → α → Prop
  | a, [], b => next a = b
  | a, x :: l, b => next a = x ∧ Path next x l b

/-- The last cell of `a :: l`. -/
def lastOf : α → List α → α
  | a, [] => a
  | _, x :: l => lastOf x l

theorem lastOf_mem (a : α) (l : List α) : lastOf a l ∈ a :: l := by
  induction l generalizing a with
  | nil => exact List.mem_cons_self
  | cons x l ih => exact List.mem_cons_of_mem _ (ih x)

theorem lastOf_append (a : α) (l r : List α) : lastOf a (l ++ r) = lastOf (lastOf a l) r := by
  induction l generalizing a with
  | nil => rfl
  | cons x l ih => exact ih x

theorem path_append {next : α → α} {a h b : α} {l r : List α} :
    Path next a (l ++ h :: r) b ↔ Path next a l h ∧ Path next h r b := by
  induction l generalizing a with
  | nil => exact Iff.rfl
  | cons x l ih =>
    simp only [List.cons_append, Path, ih, and_assoc]

theorem Path.congr {next next' : α → α} {a b : α} {l : List α} (h : Path next a l b)
    (heq : ∀ x ∈ a :: l, next' x = next x) : Path next' a l b := by
  induction l generalizing a with
  | nil => exact (heq a List.mem_cons_self).trans h
  | cons x l ih =>
    refine ⟨(heq a List.mem_cons_self).trans h.1, ih h.2 fun y hy => ?_⟩
    exact heq y (List.mem_cons_of_mem _ hy)

/-- The same cells after another one. -/
theorem Path.shift {next next' : α → α} {a a' b : α} {l : List α} (h : Path next a l b)
    (ha : next' a' = next a) (heq : ∀ x ∈ l, next' x = next x) : Path next' a' l b := by
  cases l with
  | nil => exact ha.trans h
  | cons x l => exact ⟨ha.trans h.1, h.2.congr heq⟩

/-- The cells from one on. -/
theorem Path.drop {next : α → α} {a b : α} {l r : List α} (h : Path next a (l ++ r) b) :
    Path next (lastOf a l) r b := by
  induction l generalizing a with
  | nil => exact h
  | cons x l ih => exact ih h.2

/-- The cells up to one. -/
theorem Path.take {next : α → α} {a b : α} {l r : List α} (h : Path next a (l ++ r) b) :
    Path next a l (next (lastOf a l)) := by
  induction l generalizing a with
  | nil => rfl
  | cons x l ih => exact ⟨h.1, ih h.2⟩

/-- A ring from another of its cells. -/
theorem Path.rotate {next : α → α} {a x : α} {l : List α} (h : Path next a l a) (hx : x ∈ a :: l) :
    ∃ l', Path next x l' x ∧ (x :: l').Perm (a :: l) := by
  rcases List.mem_cons.mp hx with rfl | hx
  · exact ⟨l, h, List.Perm.refl _⟩
  · obtain ⟨s, t, rfl⟩ := List.append_of_mem hx
    obtain ⟨h1, h2⟩ := path_append.mp h
    refine ⟨t ++ a :: s, path_append.mpr ⟨h2, h1⟩, ?_⟩
    calc x :: (t ++ a :: s) = (x :: t) ++ (a :: s) := rfl
      _ |>.Perm ((a :: s) ++ (x :: t)) := List.perm_append_comm
      _ = a :: (s ++ x :: t) := rfl

theorem Path.next_mem {next : α → α} {a b : α} {l : List α} (h : Path next a l b) :
    ∀ x ∈ a :: l, next x ∈ l ++ [b] := by
  induction l generalizing a with
  | nil =>
    intro x hx
    rw [List.mem_singleton.mp hx, show next a = b from h]
    exact List.mem_cons_self
  | cons y l ih =>
    intro x hx
    rcases List.mem_cons.mp hx with rfl | hx
    · rw [h.1]
      exact List.mem_cons_self
    · exact List.mem_cons_of_mem _ (ih h.2 x hx)

theorem Path.map_next {next : α → α} {a b : α} {l : List α} (h : Path next a l b) :
    (a :: l).map next = l ++ [b] := by
  induction l generalizing a with
  | nil => exact congrArg (· :: []) h
  | cons x l ih =>
    rw [List.map_cons, h.1, ih h.2]
    rfl

/-- A cell of a ring has one predecessor. -/
theorem Path.next_inj {next : α → α} {a x y : α} {l : List α} (h : Path next a l a)
    (hnodup : (a :: l).Nodup) (hx : x ∈ a :: l) (hy : y ∈ a :: l) (heq : next x = next y) : x = y := by
  have hmap : ((a :: l).map next).Nodup := by
    rw [h.map_next]
    exact (List.perm_append_singleton a l).nodup_iff.mpr hnodup
  exact List.inj_on_of_nodup_map hmap hx hy heq

/-- The cells up to the first `h` are determined. -/
theorem Path.unique {next : α → α} {a h : α} {l l' : List α} (hl : Path next a l h)
    (hl' : Path next a l' h) (hh : h ∉ l) (hh' : h ∉ l') : l = l' := by
  induction l generalizing a l' with
  | nil =>
    have ha : next a = h := hl
    cases l' with
    | nil => rfl
    | cons y l' => exact absurd (hl'.1.symm.trans ha ▸ List.mem_cons_self) hh'
  | cons x l ih =>
    cases l' with
    | nil =>
      have ha : next a = h := hl'
      exact absurd (hl.1.symm.trans ha ▸ List.mem_cons_self) hh
    | cons y l' =>
      obtain rfl : x = y := hl.1.symm.trans hl'.1
      rw [ih hl.2 hl'.2 (fun hmem => hh (List.mem_cons_of_mem _ hmem))
        fun hmem => hh' (List.mem_cons_of_mem _ hmem)]

theorem Path.exists_iterate {next : α → α} {a b x : α} {l : List α} (h : Path next a l b)
    (hx : x ∈ a :: l) : ∃ k, next^[k] a = x := by
  induction l generalizing a with
  | nil => exact ⟨0, (List.mem_singleton.mp hx).symm⟩
  | cons y l ih =>
    rcases List.mem_cons.mp hx with rfl | hx
    · exact ⟨0, rfl⟩
    · obtain ⟨k, hk⟩ := ih h.2 hx
      exact ⟨k + 1, by rw [Function.iterate_succ_apply, h.1, hk]⟩

/-- The cells of a ring are those that can be reached. -/
theorem Path.iterate_mem {next : α → α} {a : α} {l : List α} (h : Path next a l a) (k : Nat) :
    next^[k] a ∈ a :: l := by
  induction k with
  | zero => exact List.mem_cons_self
  | succ k ih =>
    rw [Function.iterate_succ_apply']
    simpa [or_comm] using h.next_mem _ ih

section

variable [DecidableEq α]

/-- A cell is taken out. -/
theorem Path.unlink {next : α → α} {a b x : α} {l r : List α} (h : Path next a (l ++ x :: r) b)
    (hnodup : (a :: (l ++ x :: r)).Nodup) :
    Path (Function.update next (lastOf a l) (next x)) a (l ++ r) b := by
  induction l generalizing a with
  | nil =>
    have ha : a ∉ r := fun hmem => (List.nodup_cons.mp hnodup).1 (List.mem_cons_of_mem _ hmem)
    refine h.2.shift (Function.update_self _ _ _) fun y hy => ?_
    apply Function.update_of_ne
    rintro rfl
    exact ha hy
  | cons y l ih =>
    obtain ⟨ha, hrest⟩ := List.nodup_cons.mp hnodup
    refine ⟨?_, ih h.2 hrest⟩
    have hlast : a ≠ lastOf y l := by
      intro heq
      apply ha
      rw [heq, List.cons_append]
      rcases List.mem_cons.mp (lastOf_mem y l) with h' | h'
      · rw [h']
        exact List.mem_cons_self
      · exact List.mem_cons_of_mem _ (List.mem_append_left _ h')
    show Function.update next (lastOf y l) (next x) a = y
    rw [Function.update_of_ne hlast]
    exact h.1

/-- The last cell is linked to another one. -/
theorem Path.redirect {next : α → α} {a b : α} {l : List α} (h : Path next a l b)
    (hnodup : (a :: l).Nodup) (c : α) : Path (Function.update next (lastOf a l) c) a l c := by
  induction l generalizing a with
  | nil => exact Function.update_self _ _ _
  | cons x l ih =>
    obtain ⟨ha, hx⟩ := List.nodup_cons.mp hnodup
    refine ⟨?_, ih h.2 hx⟩
    have hlast : a ≠ lastOf x l := fun heq => ha (heq ▸ lastOf_mem x l)
    show Function.update next (lastOf x l) c a = x
    rw [Function.update_of_ne hlast]
    exact h.1

/-- A cell put in after the last one. -/
theorem Path.snoc {next : α → α} {a b node : α} {l : List α} (h : Path next a l b)
    (hnodup : (a :: l).Nodup) (hnode : node ∉ a :: l) :
    Path (Function.update (Function.update next node b) (lastOf a l) node) a (l ++ [node]) b := by
  induction l generalizing a with
  | nil =>
    have hne : node ≠ a := fun heq => hnode (heq ▸ List.mem_cons_self)
    refine ⟨Function.update_self _ _ _, ?_⟩
    show Function.update (Function.update next node b) a node node = b
    rw [Function.update_of_ne hne, Function.update_self]
  | cons x l ih =>
    obtain ⟨ha, hx⟩ := List.nodup_cons.mp hnodup
    refine ⟨?_, ih h.2 hx fun hmem => hnode (List.mem_cons_of_mem _ hmem)⟩
    have hlast : a ≠ lastOf x l := fun heq => ha (heq ▸ lastOf_mem x l)
    have hne : a ≠ node := fun heq => hnode (heq ▸ List.mem_cons_self)
    show Function.update (Function.update next node b) (lastOf x l) node a = x
    rw [Function.update_of_ne hlast, Function.update_of_ne hne]
    exact h.1

/-- The links of all cells. -/
structure Links (α : Type) where
  next : α → α
  prev : α → α

/-- `node->next = list; list->last->next = node; node->prev = list->last; list->last = node`. -/
def Links.append (L : Links α) (list node : α) : Links α where
  next := Function.update (Function.update L.next node list) (L.prev list) node
  prev := Function.update (Function.update L.prev node (L.prev list)) list node

theorem Links.append_prev_self (L : Links α) (list node : α) : (L.append list node).prev list = node :=
  Function.update_self _ _ _

theorem Links.append_prev_node (L : Links α) {list node : α} (h : node ≠ list) :
    (L.append list node).prev node = L.prev list := by
  show Function.update (Function.update L.prev node (L.prev list)) list node node = _
  rw [Function.update_of_ne h, Function.update_self]

theorem Links.append_prev_of_ne (L : Links α) {list node x : α} (h : x ≠ list) (h' : x ≠ node) :
    (L.append list node).prev x = L.prev x := by
  show Function.update (Function.update L.prev node (L.prev list)) list node x = _
  rw [Function.update_of_ne h, Function.update_of_ne h']

theorem Links.append_next_of_ne (L : Links α) {list node x : α} (h : x ≠ L.prev list)
    (h' : x ≠ node) : (L.append list node).next x = L.next x := by
  show Function.update (Function.update L.next node list) (L.prev list) node x = _
  rw [Function.update_of_ne h, Function.update_of_ne h']

/-- The cells of `v` hang on the head `h`, in this order. -/
structure Hangs (L : Links α) (h : α) (v : List α) : Prop where
  path : Path L.next h v h
  nodup : (h :: v).Nodup
  last : L.prev h = lastOf h v

omit [DecidableEq α] in
/-- A list has one head and one order. -/
theorem Hangs.unique {L : Links α} {h : α} {v v' : List α} (hv : Hangs L h v) (hv' : Hangs L h v') :
    v = v' :=
  hv.path.unique hv'.path (List.nodup_cons.mp hv.nodup).1 (List.nodup_cons.mp hv'.nodup).1

theorem Hangs.append {L : Links α} {h node : α} {v : List α} (hv : Hangs L h v)
    (hnode : node ∉ h :: v) : Hangs (L.append h node) h (v ++ [node]) := by
  have hpath := hv.path.snoc hv.nodup hnode
  rw [← hv.last] at hpath
  refine ⟨hpath, ?_, ?_⟩
  · rw [← List.cons_append]
    refine List.nodup_append.mpr ⟨hv.nodup, List.nodup_singleton _, fun x hx y hy heq => ?_⟩
    rw [List.mem_singleton.mp hy] at heq
    exact hnode (heq ▸ hx)
  · rw [Links.append_prev_self, lastOf_append]
    rfl

/-- An insertion before an inner cell `g`, which knows its predecessor. -/
theorem Hangs.append_inner {L : Links α} {h g node : α} {l r : List α} (hv : Hangs L h (l ++ g :: r))
    (hprev : L.prev g = lastOf h l) (hnode : node ∉ h :: (l ++ g :: r)) :
    Hangs (L.append g node) h (l ++ node :: g :: r) := by
  have hsplit : h :: (l ++ g :: r) = (h :: l) ++ g :: r := rfl
  have hparts := List.nodup_append.mp (hsplit ▸ hv.nodup)
  have hlow : node ∉ h :: l := fun hmem => hnode (List.mem_append_left (g :: r) hmem)
  have hhigh : node ∉ g :: r := fun hmem => hnode (List.mem_append_right (h :: l) hmem)
  have hg : h ≠ g := fun heq => hparts.2.2 h List.mem_cons_self g List.mem_cons_self heq
  have hh : h ≠ node := fun heq => hnode (heq ▸ List.mem_cons_self)
  obtain ⟨hp, hq⟩ := path_append.mp hv.path
  refine ⟨?_, ?_, ?_⟩
  · have hfront := hp.snoc hparts.1 hlow
    rw [← hprev] at hfront
    have hback : Path (L.append g node).next g r h := hq.congr fun x hx => by
      refine L.append_next_of_ne (fun heq => ?_) fun heq => hhigh (heq ▸ hx)
      rw [hprev] at heq
      exact hparts.2.2 _ (lastOf_mem h l) x hx heq.symm
    have := path_append.mpr ⟨hfront, hback⟩
    rwa [List.append_assoc] at this
  · show ((h :: l) ++ node :: g :: r).Nodup
    refine List.nodup_append.mpr ⟨hparts.1, List.nodup_cons.mpr ⟨hhigh, hparts.2.1⟩, ?_⟩
    intro x hx y hy heq
    rcases List.mem_cons.mp hy with rfl | hy
    · exact hlow (heq ▸ hx)
    · exact hparts.2.2 x hx y hy heq
  · rw [L.append_prev_of_ne hg hh, hv.last, lastOf_append, lastOf_append]
    rfl

/-- An insertion elsewhere. -/
theorem Hangs.append_other {L : Links α} {h g node : α} {v : List α} (hv : Hangs L h v)
    (hg : g ∉ h :: v) (hprev : L.prev g ∉ h :: v) (hnode : node ∉ h :: v) :
    Hangs (L.append g node) h v := by
  refine ⟨hv.path.congr fun x hx => ?_, hv.nodup, ?_⟩
  · exact L.append_next_of_ne (fun heq => hprev (heq ▸ hx)) fun heq => hnode (heq ▸ hx)
  · have hne : h ≠ g := fun heq => hg (heq ▸ List.mem_cons_self)
    have hne' : h ≠ node := fun heq => hnode (heq ▸ List.mem_cons_self)
    rw [L.append_prev_of_ne hne hne']
    exact hv.last

omit [DecidableEq α] in
/-- The ring seen from its first cell: it ends with the head. -/
theorem Hangs.from_first {L : Links α} {h : α} {v : List α} (hv : Hangs L h v) :
    ∃ r, L.next h :: r = v ++ [h] ∧ Path L.next (L.next h) r (L.next h) ∧ L.next h ∉ r := by
  cases v with
  | nil =>
    have hself : L.next h = h := hv.path
    exact ⟨[], by rw [hself]; rfl, by rw [hself]; exact hself, List.not_mem_nil⟩
  | cons f w =>
    obtain ⟨hf, hpath⟩ := hv.path
    obtain ⟨hh, hnodup⟩ := List.nodup_cons.mp hv.nodup
    rw [hf]
    refine ⟨w ++ [h], rfl, path_append.mpr ⟨hpath, hf⟩, fun hmem => ?_⟩
    rcases List.mem_append.mp hmem with hmem | hmem
    · exact (List.nodup_cons.mp hnodup).1 hmem
    · exact hh (List.mem_singleton.mp hmem ▸ List.mem_cons_self)

omit [DecidableEq α] in
/-- The ring seen from its last cell. -/
theorem Hangs.from_last {L : Links α} {g h : α} {v : List α} (hv : Hangs L g (v ++ [h]))
    (hprev : L.prev h = lastOf g v) : Hangs L h (g :: v) := by
  obtain ⟨hp, hq⟩ := path_append.mp hv.path
  refine ⟨⟨hq, hp⟩, ?_, hprev⟩
  have hperm : (g :: (v ++ [h])).Perm (h :: g :: v) := List.perm_append_singleton h (g :: v)
  exact hperm.nodup_iff.mp hv.nodup

end

end FreeVMS.LinkRing
