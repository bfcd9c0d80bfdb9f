import FreeVMS.Lib.LinkRing

/-!
# Rings in both directions

A ring whose cells know their successors and their predecessors.  A cell is put in between two
neighbours, or taken out; what holds in one direction holds in the other one by `Links.swap`.  A family
of rings is kept when one of them changes.
-/

namespace FreeVMS.LinkRing

variable {α : Type}

/-- The first cell of `l`, or `e`. -/
def firstOf : List α → α → α
  | [], e => e
  | x :: _, _ => x

theorem lastOf_concat {a x : α} {l : List α} : lastOf a (l ++ [x]) = x := by
  rw [lastOf_append]
  rfl

theorem lastOf_reverse {h : α} {l : List α} : lastOf h l.reverse = firstOf l h := by
  cases l with
  | nil => rfl
  | cons x l => rw [List.reverse_cons, lastOf_concat, firstOf]

theorem firstOf_reverse {h : α} {l : List α} : firstOf l.reverse h = lastOf h l := by
  rw [← lastOf_reverse, List.reverse_reverse]

theorem firstOf_mem (l : List α) (e : α) : firstOf l e ∈ e :: l := by
  cases l with
  | nil => exact List.mem_cons_self
  | cons x l => exact List.mem_cons_of_mem _ List.mem_cons_self

/-- The first cell comes next. -/
theorem Path.next_eq {next : α → α} {a e : α} {l : List α} (h : Path next a l e) :
    next a = firstOf l e := by
  cases l with
  | nil => exact h
  | cons x l => exact h.1

/-- The links the other way round. -/
def Links.swap (L : Links α) : Links α := ⟨L.prev, L.next⟩

/-- The cells of `v` hang on the head `h` in both directions. -/
structure Ring (L : Links α) (h : α) (v : List α) : Prop where
  next : Path L.next h v h
  prev : Path L.prev h v.reverse h
  nodup : (h :: v).Nodup

variable {L : Links α} {h h' a b x y : α} {l r v w : List α}

theorem Ring.swap (hv : Ring L h v) : Ring L.swap h v.reverse := by
  refine ⟨hv.prev, ?_, ?_⟩
  · rw [List.reverse_reverse]
    exact hv.next
  · exact ((List.reverse_perm v).cons h).nodup_iff.mpr hv.nodup

theorem Ring.hangs (hv : Ring L h v) : Hangs L h v := by
  refine ⟨hv.next, hv.nodup, ?_⟩
  rw [hv.prev.next_eq, firstOf_reverse]

theorem Ring.next_last (hv : Ring L h (l ++ r)) : L.next (lastOf h l) = firstOf r h :=
  hv.next.drop.next_eq

theorem Ring.prev_first (hv : Ring L h (l ++ r)) : L.prev (firstOf r h) = lastOf h l := by
  have hprev := hv.prev
  rw [List.reverse_append] at hprev
  rw [← lastOf_reverse, hprev.drop.next_eq, firstOf_reverse]

/-- The neighbours of a cell. -/
theorem Ring.next_cell (hv : Ring L h (l ++ x :: r)) : L.next x = firstOf r h := by
  have hsplit : l ++ x :: r = (l ++ [x]) ++ r := by rw [List.append_assoc, List.singleton_append]
  rw [hsplit] at hv
  rw [← hv.next_last, lastOf_concat]

theorem Ring.prev_cell (hv : Ring L h (l ++ x :: r)) : L.prev x = lastOf h l :=
  hv.prev_first (r := x :: r)

/-- A ring whose links are the same. -/
theorem Ring.congr {L' : Links α} (hv : Ring L h v) (hnext : ∀ x ∈ h :: v, L'.next x = L.next x)
    (hprev : ∀ x ∈ h :: v, L'.prev x = L.prev x) : Ring L' h v := by
  refine ⟨hv.next.congr hnext, hv.prev.congr fun x hx => hprev x ?_, hv.nodup⟩
  exact ((List.reverse_perm v).cons h).mem_iff.mp hx

section

variable [DecidableEq α]

/-- `x` is put in between `a` and `b`. -/
def Links.between (L : Links α) (a b x : α) : Links α where
  next := Function.update (Function.update L.next x b) a x
  prev := Function.update (Function.update L.prev x a) b x

/-- `x` is alone. -/
def Links.single (L : Links α) (x : α) : Links α :=
  ⟨Function.update L.next x x, Function.update L.prev x x⟩

/-- `x` is taken out. -/
def Links.unlink (L : Links α) (x : α) : Links α where
  next := Function.update L.next (L.prev x) (L.next x)
  prev := Function.update L.prev (L.next x) (L.prev x)

/-- One direction of an insertion. -/
theorem Path.between {next : α → α} {e : α} (hp : Path next h (l ++ r) e) (hnodup : (h :: (l ++ r)).Nodup)
    (hx : x ∉ h :: (l ++ r)) :
    Path (Function.update (Function.update next x (firstOf r e)) (lastOf h l) x) h (l ++ x :: r) e := by
  have hparts := List.nodup_append.mp (show ((h :: l) ++ r).Nodup from hnodup)
  have hlow : x ∉ h :: l := fun hmem => hx (List.mem_append_left r hmem)
  have htake := hp.take
  rw [hp.drop.next_eq] at htake
  have hfront := htake.snoc hparts.1 hlow
  cases r with
  | nil =>
    rw [List.append_nil] at hp
    exact hp.snoc hparts.1 hlow
  | cons y r =>
    refine path_append.mpr ⟨?_, ?_, ?_⟩
    · exact (path_append.mp hfront).1
    · have hne : x ≠ lastOf h l := fun heq => hlow (heq ▸ lastOf_mem h l)
      rw [Function.update_of_ne hne, Function.update_self]
      rfl
    · refine (path_append.mp hp).2.congr fun z hz => ?_
      have hz₁ : z ≠ lastOf h l := fun heq => hparts.2.2 _ (lastOf_mem h l) z hz heq.symm
      have hz₂ : z ≠ x := fun heq => hx (heq ▸ List.mem_append_right (h :: l) hz)
      rw [Function.update_of_ne hz₁, Function.update_of_ne hz₂]

/-- **Insertion.** -/
theorem Ring.between (hv : Ring L h (l ++ r)) (hx : x ∉ h :: (l ++ r)) :
    Ring (L.between (lastOf h l) (firstOf r h) x) h (l ++ x :: r) := by
  refine ⟨hv.next.between hv.nodup hx, ?_, ?_⟩
  · have hprev := hv.swap
    rw [List.reverse_append] at hprev
    have hx' : x ∉ h :: (r.reverse ++ l.reverse) := by simpa [or_comm, not_or] using hx
    have hmid := hprev.next.between hprev.nodup hx'
    rw [lastOf_reverse, firstOf_reverse] at hmid
    rw [List.reverse_append, List.reverse_cons, List.append_assoc, List.singleton_append]
    exact hmid
  · have hperm : (h :: (l ++ x :: r)).Perm (x :: h :: (l ++ r)) :=
      (List.perm_middle.cons h).trans (List.Perm.swap x h _)
    exact hperm.nodup_iff.mpr (List.nodup_cons.mpr ⟨hx, hv.nodup⟩)

/-- **Deletion.** -/
theorem Ring.unlink (hv : Ring L h (l ++ x :: r)) : Ring (L.unlink x) h (l ++ r) := by
  refine ⟨?_, ?_, ?_⟩
  · have hnext := hv.next.unlink hv.nodup
    rw [← hv.prev_cell] at hnext
    exact hnext
  · have hprev := hv.swap
    rw [List.reverse_append, List.reverse_cons, List.append_assoc, List.singleton_append] at hprev
    have hmid := hprev.next.unlink hprev.nodup
    rw [lastOf_reverse, ← hv.next_cell] at hmid
    rw [List.reverse_append]
    exact hmid
  · have hperm : (h :: (l ++ x :: r)).Perm (x :: h :: (l ++ r)) :=
      (List.perm_middle.cons h).trans (List.Perm.swap x h _)
    exact (List.nodup_cons.mp (hperm.nodup_iff.mp hv.nodup)).2

/-- A ring without `a` and `b` does not see what is put in between them. -/
theorem Ring.between_other (hv : Ring L h v) (ha : a ∉ h :: v) (hb : b ∉ h :: v) (hx : x ∉ h :: v) :
    Ring (L.between a b x) h v := by
  refine hv.congr (fun y hy => ?_) fun y hy => ?_
  · show Function.update (Function.update L.next x b) a x y = _
    rw [Function.update_of_ne (ne_of_mem_of_not_mem hy ha), Function.update_of_ne (ne_of_mem_of_not_mem hy hx)]
  · show Function.update (Function.update L.prev x a) b x y = _
    rw [Function.update_of_ne (ne_of_mem_of_not_mem hy hb), Function.update_of_ne (ne_of_mem_of_not_mem hy hx)]

theorem Ring.unlink_other (hv : Ring L h v) (ha : L.prev x ∉ h :: v) (hb : L.next x ∉ h :: v) :
    Ring (L.unlink x) h v := by
  refine hv.congr (fun y hy => ?_) fun y hy => ?_
  · exact Function.update_of_ne (ne_of_mem_of_not_mem hy ha) _ _
  · exact Function.update_of_ne (ne_of_mem_of_not_mem hy hb) _ _

end

/-! ### Walks -/

section

variable [DecidableEq α]

/-- The cells from `x` on up to `h`, when they are followed one by one. -/
def walk (next : α → α) (h : α) : Nat → α → Option (List α)
  | 0, _ => none
  | fuel + 1, x => if x = h then some [] else (walk next h fuel (next x)).map fun l => x :: l

theorem Path.walk {next : α → α} {fuel : Nat} (hp : Path next a l h) (hh : h ∉ l)
    (hfuel : l.length < fuel) : LinkRing.walk next h fuel (next a) = some l := by
  induction l generalizing a fuel with
  | nil =>
    obtain ⟨fuel, rfl⟩ := Nat.exists_eq_add_one_of_ne_zero (Nat.ne_of_gt hfuel)
    rw [LinkRing.walk]
    exact if_pos hp
  | cons x l ih =>
    obtain ⟨fuel, rfl⟩ := Nat.exists_eq_add_one_of_ne_zero (Nat.ne_of_gt (Nat.zero_lt_of_lt hfuel))
    have hx : x ≠ h := fun heq => hh (heq ▸ List.mem_cons_self)
    rw [LinkRing.walk, hp.1, if_neg hx, ih hp.2 (fun hmem => hh (List.mem_cons_of_mem _ hmem))
      (Nat.lt_of_succ_lt_succ hfuel)]
    rfl

/-- A ring is read from either end. -/
theorem Ring.walk {fuel : Nat} (hv : Ring L h v) (hfuel : v.length < fuel) :
    LinkRing.walk L.next h fuel (L.next h) = some v ∧
      LinkRing.walk L.prev h fuel (L.prev h) = some v.reverse := by
  have hh := (List.nodup_cons.mp hv.nodup).1
  refine ⟨hv.next.walk hh hfuel, hv.prev.walk ?_ ?_⟩
  · rwa [List.mem_reverse]
  · rwa [List.length_reverse]

end

/-! ### Families -/

/-- Each head has its ring, and no cell is in two of them. -/
structure Family (L : Links α) (heads : List α) (v : α → List α) : Prop where
  ring : ∀ h ∈ heads, Ring L h (v h)
  apart : ∀ h ∈ heads, ∀ h' ∈ heads, h ≠ h' → ∀ x ∈ h :: v h, x ∉ h' :: v h'

section

variable [DecidableEq α] {heads : List α} {f : α → List α}

omit [DecidableEq α] in
theorem Family.congr {f' : α → List α} (hf : Family L heads f) (heq : ∀ h ∈ heads, f' h = f h) :
    Family L heads f' := by
  refine ⟨fun h hh => ?_, fun h hh h' hh' hne x hx => ?_⟩
  · rw [heq h hh]
    exact hf.ring h hh
  · rw [heq h' hh']
    rw [heq h hh] at hx
    exact hf.apart h hh h' hh' hne x hx

/-- A new head. -/
theorem Family.single (hf : Family L heads f) (hx : ∀ h ∈ heads, x ∉ h :: f h) :
    Family (L.single x) (x :: heads) (Function.update f x []) := by
  have hne : ∀ h ∈ heads, h ≠ x := fun h hh heq => hx h hh (heq ▸ List.mem_cons_self)
  constructor
  case ring =>
    intro h hh
    rcases List.mem_cons.mp hh with rfl | hh
    · rw [Function.update_self]
      exact ⟨Function.update_self _ _ _, Function.update_self _ _ _, List.nodup_singleton _⟩
    · rw [Function.update_of_ne (hne h hh)]
      refine (hf.ring h hh).congr (fun y hy => ?_) fun y hy => ?_
      · exact Function.update_of_ne (ne_of_mem_of_not_mem hy (hx h hh)) _ _
      · exact Function.update_of_ne (ne_of_mem_of_not_mem hy (hx h hh)) _ _
  case apart =>
    intro h hh h' hh' hhh y hy
    rcases List.mem_cons.mp hh with rfl | hin
    · rcases List.mem_cons.mp hh' with rfl | hin'
      · exact absurd rfl hhh
      · rw [Function.update_self, List.mem_singleton] at hy
        rw [Function.update_of_ne (hne h' hin'), hy]
        exact hx h' hin'
    · rw [Function.update_of_ne (hne h hin)] at hy
      rcases List.mem_cons.mp hh' with rfl | hin'
      · rw [Function.update_self, List.mem_singleton]
        exact ne_of_mem_of_not_mem hy (hx h hin)
      · rw [Function.update_of_ne (hne h' hin')]
        exact hf.apart h hin h' hin' hhh y hy

/-- A cell is put into one of the rings. -/
theorem Family.between (hf : Family L heads f) (hh : h ∈ heads) (hsplit : f h = l ++ r)
    (hx : ∀ h' ∈ heads, x ∉ h' :: f h') :
    Family (L.between (lastOf h l) (firstOf r h) x) heads (Function.update f h (l ++ x :: r)) := by
  have ha : lastOf h l ∈ h :: f h := by
    rw [hsplit]
    exact List.mem_append_left r (lastOf_mem h l)
  have hb : firstOf r h ∈ h :: f h := by
    rw [hsplit]
    rcases List.mem_cons.mp (firstOf_mem r h) with heq | hmem
    · rw [heq]
      exact List.mem_cons_self
    · exact List.mem_append_right (h :: l) hmem
  have hcells : ∀ y, y ∈ h :: (l ++ x :: r) ↔ y = x ∨ y ∈ h :: f h := by
    intro y
    rw [hsplit]
    simp only [List.mem_cons, List.mem_append]
    tauto
  have hring := hf.ring h hh
  rw [hsplit] at hring
  have hxh := hx h hh
  rw [hsplit] at hxh
  constructor
  case ring =>
    intro g hg
    by_cases hgh : g = h
    · subst hgh
      rw [Function.update_self]
      exact hring.between hxh
    · rw [Function.update_of_ne hgh]
      have hno := hf.apart h hh g hg (Ne.symm hgh)
      exact (hf.ring g hg).between_other (hno _ ha) (hno _ hb) (hx g hg)
  case apart =>
    intro g hg g' hg' hne y hy
    by_cases hgh : g = h
    · subst hgh
      rw [Function.update_self, hcells] at hy
      rw [Function.update_of_ne (Ne.symm hne)]
      rcases hy with rfl | hy
      · exact hx g' hg'
      · exact hf.apart g hg g' hg' hne y hy
    · rw [Function.update_of_ne hgh] at hy
      by_cases hgh' : g' = h
      · subst hgh'
        rw [Function.update_self, hcells, not_or]
        refine ⟨fun heq => hx g hg (heq ▸ hy), hf.apart g hg g' hg' hne y hy⟩
      · rw [Function.update_of_ne hgh']
        exact hf.apart g hg g' hg' hne y hy

/-- A cell is taken out of its ring. -/
theorem Family.unlink (hf : Family L heads f) (hh : h ∈ heads) (hsplit : f h = l ++ x :: r) :
    Family (L.unlink x) heads (Function.update f h (l ++ r)) := by
  have hring := hf.ring h hh
  rw [hsplit] at hring
  have hcells : ∀ y, y ∈ h :: (l ++ r) → y ∈ h :: f h := by
    intro y hy
    rw [hsplit]
    simp only [List.mem_cons, List.mem_append] at hy ⊢
    tauto
  have ha : L.prev x ∈ h :: f h := by
    rw [hring.prev_cell, hsplit]
    exact List.mem_append_left (x :: r) (lastOf_mem h l)
  have hb : L.next x ∈ h :: f h := by
    rw [hring.next_cell]
    refine hcells _ ?_
    rcases List.mem_cons.mp (firstOf_mem r h) with heq | hmem
    · rw [heq]
      exact List.mem_cons_self
    · exact List.mem_append_right (h :: l) hmem
  constructor
  case ring =>
    intro g hg
    by_cases hgh : g = h
    · subst hgh
      rw [Function.update_self]
      exact hring.unlink
    · rw [Function.update_of_ne hgh]
      have hno := hf.apart h hh g hg (Ne.symm hgh)
      exact (hf.ring g hg).unlink_other (hno _ ha) (hno _ hb)
  case apart =>
    have hsub : ∀ g, ∀ y, y ∈ g :: Function.update f h (l ++ r) g → y ∈ g :: f g := by
      intro g y hy
      by_cases hgh : g = h
      · subst hgh
        rw [Function.update_self] at hy
        exact hcells y hy
      · rwa [Function.update_of_ne hgh] at hy
    exact fun g hg g' hg' hne y hy hy' => hf.apart g hg g' hg' hne y (hsub g y hy) (hsub g' y hy')

end

end FreeVMS.LinkRing
