import FreeVMS.Rtl.TreeSet

/-!
# The balance of the trees

A tree is good when every stored depth is the height of the subtree and the heights of the two
subtrees of a node differ by one at most.  An insertion rebalances the subtree of the node it hangs
the new node on, so the nodes above have to keep their depths: the height of that subtree must not
change.  The first insertion does not set a depth at all.
-/

namespace FreeVMS.Rtl.Tree

open SearchTree

variable {K : Type}

/-- Every stored depth is the height, and the heights of the two sides differ by one at most. -/
def Good : Avl K → Prop
  | .nil => True
  | .node l e r =>
      e.depth.toNat = max l.height r.height + 1 ∧ l.height ≤ r.height + 1 ∧
        r.height ≤ l.height + 1 ∧ Good l ∧ Good r

/-- The tree in memory is good. -/
def Balanced (m : Memory K) : Prop := ∃ t, Stored m t ∧ m.treehead = root t ∧ Good t

theorem Holds.balanced_iff {cmp : K → K → Int} {m : Memory K} {t : Avl K} (h : Holds cmp m t) :
    Balanced m ↔ Good t := by
  constructor
  · rintro ⟨t', hs, hh, hg⟩
    rwa [h.stored.unique hs (h.head.symm.trans hh)]
  · exact fun hg => ⟨t, h.stored, h.head, hg⟩

theorem Good.depthOf {t : Avl K} (h : Good t) : depthOf t = t.height := by
  cases t with
  | nil => rfl
  | node l e r => exact h.1

/-- A good tree has nothing to rebalance. -/
theorem Good.rebalance : ∀ {t : Avl K}, Good t → rebalance t = t := by
  intro t
  induction t with
  | nil => exact fun _ => rfl
  | node l e r ihl ihr =>
    rintro ⟨hd, hlr, hrl, hl, hr⟩
    rw [Tree.rebalance, ihl hl, ihr hr, balance, hl.depthOf, hr.depthOf, if_neg (by omega),
      if_neg (by omega), mk, join, calcDepth, hl.depthOf, hr.depthOf, ← hd, UInt16.ofNat_toNat]

@[simp] theorem height_join (d : Side) (x y : Avl K) (e : Entry K) :
    (join d x e y).height = max x.height y.height + 1 := by
  cases d with
  | left => rfl
  | right => simp [join, Nat.max_comm]

theorem good_join {d : Side} {x y : Avl K} {e : Entry K} :
    Good (join d x e y) ↔ e.depth.toNat = max x.height y.height + 1 ∧ x.height ≤ y.height + 1 ∧
      y.height ≤ x.height + 1 ∧ Good x ∧ Good y := by
  cases d with
  | left => exact Iff.rfl
  | right =>
    rw [join, Good, Nat.max_comm]
    tauto

/-- Rebalancing gives a leaf its depth. -/
theorem good_rebalance_leaf (e : Entry K) :
    Good (rebalance (leaf e)) ∧ (rebalance (leaf e)).height = 1 := by
  simp [leaf, rebalance, balance, mk, join, calcDepth, Good]

theorem rebalance_join (d : Side) (x y : Avl K) (e : Entry K) (hx : Good (rebalance x))
    (hy : Good (rebalance y)) (hxy : (rebalance x).height ≤ (rebalance y).height + 1)
    (hyx : (rebalance y).height ≤ (rebalance x).height + 1) :
    rebalance (join d x e y) = mk d (rebalance x) e.addr e.item (rebalance y) := by
  cases d with
  | left =>
    rw [join, rebalance, balance, hx.depthOf, hy.depthOf, if_neg (by omega), if_neg (by omega)]
  | right =>
    rw [join, rebalance, balance, hx.depthOf, hy.depthOf, if_neg (by omega), if_neg (by omega), mk,
      mk, calcDepth_comm]
    rfl

/-- The new node on the free side of a node. -/
theorem good_rebalance_attach (d : Side) (e new : Entry K) {y : Avl K} (hy : Good y)
    (hle : y.height ≤ 1) :
    Good (rebalance (join d (leaf new) e y)) ∧ (rebalance (join d (leaf new) e y)).height = 2 := by
  obtain ⟨hleaf, hone⟩ := good_rebalance_leaf new
  rw [rebalance_join d (leaf new) y e hleaf (by rwa [hy.rebalance]) (by rw [hone]; omega)
    (by rw [hone, hy.rebalance]; omega), hy.rebalance, mk, good_join, height_join, calcDepth,
    hleaf.depthOf, hy.depthOf, hone]
  have hmax : max 1 y.height = 1 := by omega
  rw [hmax]
  exact ⟨⟨rfl, by omega, by omega, hleaf, hy⟩, rfl⟩

section Compare

variable (cmp : K → K → Int)

/-- The subtree of the node that a key is hung on, and the sibling of that subtree, if there is
    one; nothing if the key is there. -/
def site (item : K) : Avl K → Option (Avl K × Option (Avl K))
  | .nil => none
  | .node l e r =>
      if cmp item e.item < 0 then
        if isNil l then some (.node l e r, none)
        else (site item l).map fun p => (p.1, p.2.or (some r))
      else if cmp item e.item > 0 then
        if isNil r then some (.node l e r, none)
        else (site item r).map fun p => (p.1, p.2.or (some l))
      else none

/-- The node that the key is hung on has a child, or is the root, or its sibling has height 2. -/
def Keeps (item : K) (t : Avl K) : Prop :=
  ∀ n s, site cmp item t = some (n, some s) → 2 ≤ n.height ∨ s.height = 2

variable {cmp}

variable (cmp) in
/-- What an insertion into a good tree does to it, by where the new node is hung. -/
def InsertGood (new : Entry K) (t : Avl K) : Option (Avl K × Option (Avl K)) → Prop
  | none => insert cmp new t = t
  | some (n, none) => n = t ∧ Good (insert cmp new t) ∧ (insert cmp new t).height = 2 ∧ t.height ≤ 2
  | some (n, some s) => (Good (insert cmp new t) ↔ 2 ≤ n.height ∨ s.height = 2) ∧
      (Good (insert cmp new t) → (insert cmp new t).height = t.height)

/-- An insertion below a node. -/
theorem InsertGood.below {d : Side} {e new : Entry K} {x y t : Avl K}
    (hins : insert cmp new t = join d (insert cmp new x) e y) (ht : t = join d x e y)
    (hg : Good (join d x e y)) (hx : x ≠ .nil) : ∀ {o : Option (Avl K × Option (Avl K))},
      InsertGood cmp new x o → InsertGood cmp new t (o.map fun p => (p.1, p.2.or (some y)))
  | none, h => by
      have h : insert cmp new x = x := h
      change insert cmp new t = t
      rw [hins, h, ht]
  | some (n, none), h => by
      obtain ⟨rfl, hgx, hh, hle⟩ := h
      have hpos : n.height ≠ 0 := fun h0 => hx (Tree.height_eq_zero.mp h0)
      obtain ⟨hd, hxy, hyx, -, hy⟩ := good_join.mp hg
      change (Good (insert cmp new t) ↔ 2 ≤ n.height ∨ y.height = 2) ∧
        (Good (insert cmp new t) → (insert cmp new t).height = t.height)
      rw [hins, ht, good_join, height_join, height_join, hh, hd]
      refine ⟨⟨fun h => ?_, fun h => ⟨?_, ?_, ?_, hgx, hy⟩⟩, fun h => ?_⟩ <;> omega
  | some (n, some s), h => by
      obtain ⟨hiff, hsame⟩ := h
      obtain ⟨hd, hxy, hyx, -, hy⟩ := good_join.mp hg
      change (Good (insert cmp new t) ↔ 2 ≤ n.height ∨ s.height = 2) ∧
        (Good (insert cmp new t) → (insert cmp new t).height = t.height)
      rw [hins, ht, good_join, height_join, height_join, ← hiff]
      refine ⟨⟨fun h => h.2.2.2.1, fun h => ?_⟩, fun h => ?_⟩
      · rw [hsame h]
        exact ⟨hd, hxy, hyx, h, hy⟩
      · rw [hsame h.2.2.2.1]

/-- **An insertion into a good tree.** -/
theorem insertGood_site {new : Entry K} : ∀ {t : Avl K}, Good t → t ≠ .nil →
    InsertGood cmp new t (site cmp new.item t) := by
  intro t
  induction t with
  | nil => exact fun _ h => absurd rfl h
  | node l e r ihl ihr =>
    intro hg _
    have hg' := hg
    obtain ⟨hd, hlr, hrl, hl, hr⟩ := hg'
    rw [site]
    split_ifs with hlt hnil hgt hnil
    · obtain rfl := isNil_iff.mp hnil
      have hins : insert cmp new (.node .nil e r) = rebalance (join .left (leaf new) e r) := by
        rw [insert, if_pos hlt, if_pos hnil]
        rfl
      obtain ⟨h₁, h₂⟩ := good_rebalance_attach .left e new hr (by simpa using hrl)
      rw [InsertGood, hins]
      exact ⟨rfl, h₁, h₂, by simp at hrl ⊢; omega⟩
    · have hins : insert cmp new (.node l e r) = join .left (insert cmp new l) e r := by
        rw [insert, if_pos hlt, if_neg hnil]
        rfl
      have hx : l ≠ .nil := by simpa using hnil
      exact InsertGood.below (d := .left) hins rfl hg hx (ihl hl hx)
    · obtain rfl := isNil_iff.mp hnil
      have hins : insert cmp new (.node l e .nil) = rebalance (join .right (leaf new) e l) := by
        rw [insert, if_neg hlt, if_pos hgt, if_pos hnil]
        rfl
      obtain ⟨h₁, h₂⟩ := good_rebalance_attach .right e new hl (by simpa using hlr)
      rw [InsertGood, hins]
      exact ⟨rfl, h₁, h₂, by simp at hlr ⊢; omega⟩
    · have hins : insert cmp new (.node l e r) = join .right (insert cmp new r) e l := by
        rw [insert, if_neg hlt, if_pos hgt, if_neg hnil]
        rfl
      have hx : r ≠ .nil := by simpa using hnil
      exact InsertGood.below (d := .right) hins rfl hg hx (ihr hr hx)
    · rw [InsertGood, insert, if_neg hlt, if_neg hgt]

/-! ### Runs -/

/-- The tree has one node. -/
def Single (t : Avl K) : Prop := (nodes t).length = 1

variable (cmp) in
/-- The condition on a call: if it hangs a node, then at the root, at a node that has a child, or at a
    leaf whose sibling has height 2. -/
def KeepsBalance (t : Avl K) (c : Call K) : Prop := c.Allocates → Keeps cmp c.symbol t

theorem length_nodes_eq_zero {t : Avl K} : (nodes t).length = 0 ↔ t = .nil := by
  cases t <;> simp

theorem Single.eq_leaf {t : Avl K} (h : Single t) : ∃ e, t = leaf e := by
  cases t with
  | nil => exact absurd h (by simp [Single])
  | node l e r =>
    rw [Single, nodes_node, List.length_append, List.length_cons] at h
    obtain rfl : l = .nil := length_nodes_eq_zero.mp (by omega)
    obtain rfl : r = .nil := length_nodes_eq_zero.mp (by omega)
    exact ⟨e, rfl⟩

theorem length_nodes_insert (new : Entry K) (t : Avl K) :
    (nodes t).length ≤ (nodes (insert cmp new t)).length := by
  induction t with
  | nil => exact Nat.zero_le _
  | node l e r ihl ihr =>
    rw [insert]
    split_ifs with hlt hnil hgt hnil
    · simp [leaf, isNil_iff.mp hnil]
    · simp only [nodes_node, List.length_append, List.length_cons]
      omega
    · simp [leaf, isNil_iff.mp hnil]
    · simp only [nodes_node, List.length_append, List.length_cons]
      omega
    · exact Nat.le_refl _

/-- Whatever depth the first node has, the second insertion sets it. -/
theorem good_insert_leaf (new e : Entry K) :
    insert cmp new (leaf e) = leaf e ∨
      Good (insert cmp new (leaf e)) ∧ ¬ Single (insert cmp new (leaf e)) := by
  have hleft := (good_rebalance_attach (K := K) .left e new (y := .nil) trivial (by simp)).1
  have hright := (good_rebalance_attach (K := K) .right e new (y := .nil) trivial (by simp)).1
  rw [leaf, insert]
  split_ifs with hlt hnil hgt hnil
  · exact .inr ⟨hleft, by simp [Single, leaf]⟩
  · exact absurd rfl hnil
  · exact .inr ⟨hright, by simp [Single, leaf]⟩
  · exact absurd rfl hnil
  · exact .inl rfl

theorem keeps_leaf (item : K) (e : Entry K) : Keeps cmp item (leaf e) := by
  intro n s h
  rw [leaf, site] at h
  split_ifs at h with hlt hnil hgt hnil
  · simp at h
  · exact absurd rfl hnil
  · simp at h
  · exact absurd rfl hnil

theorem inserted_nil {c : Call K} (ha : c.Allocates) :
    inserted cmp .nil c = leaf ⟨c.newNode, 0, c.symbol⟩ := by
  rw [inserted, if_pos ha]
  rfl

theorem inserted_of_ne {t : Avl K} {c : Call K} (ha : c.Allocates) (ht : t ≠ .nil) :
    inserted cmp t c = insert cmp c.entry t := by
  rw [inserted, if_pos ha, if_neg (by rwa [isNil_iff])]

/-- The condition is exact, where a tree of one node is left out. -/
theorem good_inserted_iff {t : Avl K} {c : Call K} (h : ¬ Single t → Good t) :
    (¬ Single (inserted cmp t c) → Good (inserted cmp t c)) ↔ KeepsBalance cmp t c := by
  by_cases ha : c.Allocates
  swap
  · rw [inserted_of_not ha]
    exact ⟨fun _ ha' => absurd ha' ha, fun _ => h⟩
  by_cases hnil : t = .nil
  · subst hnil
    rw [inserted_nil ha]
    exact ⟨fun _ _ => nofun, fun _ hs => absurd rfl hs⟩
  rw [inserted_of_ne ha hnil]
  by_cases hsingle : Single t
  · obtain ⟨e, rfl⟩ := hsingle.eq_leaf
    refine ⟨fun _ _ => keeps_leaf c.symbol e, fun _ hs => ?_⟩
    have hins : insert cmp c.entry (leaf e) = leaf e ∨ Good (insert cmp c.entry (leaf e)) ∧ _ :=
      good_insert_leaf c.entry e
    rcases hins with hid | hg
    · rw [hid] at hs
      exact absurd hsingle hs
    · exact hg.1
  · have hlen : ¬ Single (insert cmp c.entry t) := by
      have h₁ : (nodes t).length ≤ (nodes (insert cmp c.entry t)).length :=
        length_nodes_insert c.entry t
      have h₂ := length_nodes_eq_zero.not.mpr hnil
      rw [Single] at hsingle ⊢
      omega
    have hins : InsertGood cmp c.entry t (site cmp c.entry.item t) :=
      insertGood_site (h hsingle) hnil
    have hkeeps : KeepsBalance cmp t c ↔ Keeps cmp c.entry.item t := ⟨fun hk => hk ha, fun hk _ => hk⟩
    rw [hkeeps, Keeps]
    generalize site cmp c.entry.item t = o at hins ⊢
    match o, hins with
    | none, hid =>
      have hid : insert cmp c.entry t = t := hid
      rw [hid]
      exact ⟨fun _ => nofun, fun _ => h⟩
    | some (n, none), hroot => exact ⟨fun _ => nofun, fun _ _ => hroot.2.1⟩
    | some (n, some s), hbelow =>
      refine ⟨fun hg n' s' heq => ?_, fun hk _ => hbelow.1.mpr (hk n s rfl)⟩
      obtain ⟨rfl, hs⟩ := Prod.mk.inj (Option.some.inj heq)
      obtain rfl := Option.some.inj hs
      exact hbelow.1.mp (hg hlen)

/-- A tree of one node, as the first insertion leaves it, has the depth 0. -/
theorem not_good_single : ∀ {calls : List (Call K)},
    Single (treeAfter cmp calls) → ¬ Good (treeAfter cmp calls) := by
  intro calls
  induction calls using List.reverseRecOn with
  | nil => exact fun h => absurd h (by simp [Single, treeAfter])
  | append_singleton calls c ih =>
    rw [treeAfter_concat]
    by_cases ha : c.Allocates
    swap
    · rwa [inserted_of_not ha]
    by_cases hnil : treeAfter cmp calls = .nil
    · rw [hnil, inserted_nil ha]
      exact fun _ hg => absurd hg.1 (by simp)
    · rw [inserted_of_ne ha hnil]
      intro hs hg
      have hlen : (nodes (treeAfter cmp calls)).length ≤
          (nodes (insert cmp c.entry (treeAfter cmp calls))).length := length_nodes_insert c.entry _
      have hsingle : Single (treeAfter cmp calls) := by
        have := length_nodes_eq_zero.not.mpr hnil
        rw [Single] at hs ⊢
        omega
      obtain ⟨e, he⟩ := hsingle.eq_leaf
      rw [he] at hs hg ih
      have hins : insert cmp c.entry (leaf e) = leaf e ∨ _ ∧ ¬ Single (insert cmp c.entry (leaf e)) :=
        good_insert_leaf c.entry e
      rcases hins with hid | hne
      · rw [hid] at hs hg
        exact ih hs hg
      · exact hne.2 hs

theorem FreshCalls.of_prefix {calls pre : List (Call K)} (h : FreshCalls calls)
    (hpre : pre <+: calls) : FreshCalls pre := by
  have hsub : (newNodes pre).Sublist (newNodes calls) :=
    (hpre.sublist.filter _).map _
  exact ⟨fun h0 => h.nonnull (hsub.subset h0), h.nodup.sublist hsub⟩

/-- **Balance.**  Take any calls of `lib$insert_tree` on an empty tree.  A tree of one node is never
    balanced; all the other trees on the way are if and only if each call that hangs a node does so
    at the root, at a node that has a child, or at a leaf whose sibling has height 2. -/
theorem balanced_iff_keeps (hc : Consistent cmp) (calls : List (Call K))
    (hfresh : FreshCalls calls) (fuel : Nat) (hfuel : calls.length ≤ fuel) (m : Memory K)
    (hm : m.treehead = 0) :
    (∀ pre, pre <+: calls → ∃ m', insertAll cmp fuel pre m = .ok m' ∧
      (Balanced m' ↔ ¬ Single (treeAfter cmp pre))) ↔
    ∀ pre c, pre ++ [c] <+: calls → KeepsBalance cmp (treeAfter cmp pre) c := by
  have hmem : ∀ pre, pre <+: calls → ((∃ m', insertAll cmp fuel pre m = .ok m' ∧
      (Balanced m' ↔ ¬ Single (treeAfter cmp pre))) ↔
        (¬ Single (treeAfter cmp pre) → Good (treeAfter cmp pre))) := by
    intro pre hpre
    obtain ⟨m', hrun, hh⟩ := insertAll_spec hc (hfresh.of_prefix hpre)
      (Nat.le_trans hpre.length_le hfuel) hm
    constructor
    · rintro ⟨m'', hrun', hiff⟩ hs
      obtain rfl : m' = m'' := Except.ok.inj (hrun.symm.trans hrun')
      exact hh.balanced_iff.mp (hiff.mpr hs)
    · intro h
      exact ⟨m', hrun, fun hb hs => not_good_single hs (hh.balanced_iff.mp hb),
        fun hs => hh.balanced_iff.mpr (h hs)⟩
  have hstep : ∀ pre c, (¬ Single (treeAfter cmp pre) → Good (treeAfter cmp pre)) →
      ((¬ Single (treeAfter cmp (pre ++ [c])) → Good (treeAfter cmp (pre ++ [c]))) ↔
        KeepsBalance cmp (treeAfter cmp pre) c) := by
    intro pre c hpre
    rw [treeAfter_concat]
    exact good_inserted_iff hpre
  rw [← Run.forall_prefix_iff (fun _ => trivial) hstep]
  exact forall_congr' fun pre => forall_congr' fun hpre => hmem pre hpre

end Compare

/-- Three keys from the middle one on. -/
theorem balanced_iff_keeps_run :
    ∃ m', insertAll compareNat 3 ([2, 1, 3].map callFor) noTree = .ok m' ∧
      (Balanced m' ↔ ¬ Single (treeAfter compareNat ([2, 1, 3].map callFor))) := by
  refine (balanced_iff_keeps compareNat_consistent ([2, 1, 3].map callFor) ⟨by decide, by decide⟩ 3
    (by decide) noTree rfl).mpr (fun pre c hpre _ => ?_) _ List.prefix_rfl
  obtain ⟨suf, hsuf⟩ := hpre
  match pre, hsuf with
  | [], h =>
    exact fun n s hsite => nomatch hsite
  | [x], h =>
    obtain ⟨rfl, -⟩ := List.cons.inj h
    exact fun n s hsite => keeps_leaf _ _ n s hsite
  | [x, y], h =>
    simp only [List.cons_append, List.nil_append, List.map_cons, List.map_nil, List.cons.injEq] at h
    obtain ⟨rfl, rfl, rfl, -⟩ := h
    exact fun n s hsite => nomatch hsite
  | x :: y :: z :: pre, h => simp at h

/-- Three keys in ascending order become a chain. -/
theorem ascending_not_balanced :
    ∃ m', insertAll compareNat 3 ([1, 2, 3].map callFor) noTree = .ok m' ∧ ¬ Balanced m' := by
  obtain ⟨m', hrun, hh⟩ := insertAll_spec compareNat_consistent
    (⟨by decide, by decide⟩ : FreshCalls ([1, 2, 3].map callFor)) (Nat.le_refl 3)
    (rfl : noTree.treehead = 0)
  have htree : treeAfter compareNat ([1, 2, 3].map callFor) =
      .node .nil ⟨2, 2, 1⟩ (.node .nil ⟨3, 2, 2⟩ (leaf ⟨4, 1, 3⟩)) := by rfl
  rw [htree] at hh
  refine ⟨m', hrun, fun hb => ?_⟩
  have hg := hh.balanced_iff.mp hb
  exact absurd hg.2.2.1 (by decide)

end FreeVMS.Rtl.Tree
