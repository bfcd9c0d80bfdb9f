import FreeVMS.Rtl.TreeSpec

/-!
# Search, insertion and traversal of the trees

The search ends where a recursion on the tree ends, the insertion hangs the new node there and
rebalances the subtree of its parent, and the traversal visits the nodes in order.
-/

namespace FreeVMS.Rtl.Tree

open SearchTree

variable {K σ : Type}

def isNil : Avl K → Bool
  | .nil => true
  | .node _ _ _ => false

@[simp] theorem isNil_iff {t : Avl K} : isNil t = true ↔ t = .nil := by cases t <;> simp [isNil]

def leaf (e : Entry K) : Avl K := .node .nil e .nil

section Compare

variable (cmp : K → K → Int)

/-- The comparison of two nodes by their keys. -/
def cmpNode (a b : Nat × K) : Int := cmp a.2 b.2

/-- Where the search for a key in a subtree ends, given the parent of the subtree. -/
def place (item : K) : Avl K → Nat → Found × Nat × Nat
  | .nil, parent => (.same, 0, parent)
  | .node l e r, parent =>
      if cmp item e.item < 0 then
        if isNil l then (.before, e.addr, parent) else place item l e.addr
      else if cmp item e.item > 0 then
        if isNil r then (.after, e.addr, parent) else place item r e.addr
      else (.same, e.addr, parent)

/-- What the insertion of a node makes of a subtree. -/
def insert (new : Entry K) : Avl K → Avl K
  | .nil => leaf new
  | .node l e r =>
      if cmp new.item e.item < 0 then
        if isNil l then rebalance (.node (leaf new) e r) else .node (insert new l) e r
      else if cmp new.item e.item > 0 then
        if isNil r then rebalance (.node l e (leaf new)) else .node l e (insert new r)
      else .node l e r

variable {cmp}

theorem cmpNode_consistent (hc : Consistent cmp) : Consistent (cmpNode (K := K) cmp) :=
  hc.on Prod.snd

/-! ### Search -/

theorem searchLoop_eq {m : Memory K} {item : K} : ∀ {t : Avl K} {fuel : Nat} (p : Nat), t ≠ .nil →
    t.height ≤ fuel → Stored m t →
    searchLoop cmp m item fuel (root t) p = .ok (place cmp item t p) := by
  intro t
  induction t with
  | nil => exact fun _ h => absurd rfl h
  | node l e r ihl ihr =>
    intro fuel p _ hfuel hs
    rw [Tree.height_node] at hfuel
    obtain ⟨fuel, rfl⟩ : ∃ f, fuel = f + 1 := ⟨fuel - 1, by omega⟩
    obtain ⟨he, hn, hl, hr⟩ := hs
    have hl0 : root l ≠ 0 ↔ ¬ isNil l = true := by rw [isNil_iff, ne_eq, root_eq_zero hl]
    have hr0 : root r ≠ 0 ↔ ¬ isNil r = true := by rw [isNil_iff, ne_eq, root_eq_zero hr]
    simp only [searchLoop, root_node, load_eq m he, ok_bind, hn, place, hl0, hr0]
    split_ifs with hlt hnil hgt hnil
    · rfl
    · exact ihl e.addr (by simpa using hnil) (by omega) hl
    · rfl
    · exact ihr e.addr (by simpa using hnil) (by omega) hr
    · rfl

theorem sorted_node {l r : Avl K} {e : Entry K} (h : Sorted (cmpNode cmp) (nodes (.node l e r))) :
    Sorted (cmpNode cmp) (nodes l) ∧ Sorted (cmpNode cmp) (nodes r) ∧
      (∀ n ∈ nodes l, cmp n.2 e.item < 0) ∧ ∀ n ∈ nodes r, cmp e.item n.2 < 0 := by
  rw [nodes_node, Sorted, List.pairwise_append, List.pairwise_cons] at h
  exact ⟨h.1, h.2.1.2, fun n hn => h.2.2 n hn _ List.mem_cons_self, h.2.1.1⟩

/-- What the search finds is there. -/
theorem place_found {item : K} : ∀ {t : Avl K} (p : Nat), t ≠ .nil →
    (place cmp item t p).1 = .same →
    ∃ n ∈ nodes t, (place cmp item t p).2.1 = n.1 ∧ cmp item n.2 = 0 := by
  intro t
  induction t with
  | nil => exact fun _ h => absurd rfl h
  | node l e r ihl ihr =>
    intro p _ hsame
    rw [place] at hsame ⊢
    split_ifs at hsame ⊢ with hlt hnil hgt hnil
    · obtain ⟨n, hn, h⟩ := ihl e.addr (by simpa using hnil) hsame
      exact ⟨n, by simp [hn], h⟩
    · obtain ⟨n, hn, h⟩ := ihr e.addr (by simpa using hnil) hsame
      exact ⟨n, by simp [hn], h⟩
    · exact ⟨(e.addr, e.item), by simp, rfl, by dsimp only; omega⟩

/-- What the search does not find is not there. -/
theorem place_absent (hc : Consistent cmp) {item : K} : ∀ {t : Avl K} (p : Nat),
    Sorted (cmpNode cmp) (nodes t) → (place cmp item t p).1 ≠ .same →
    ∀ n ∈ nodes t, cmp item n.2 ≠ 0 := by
  intro t
  induction t with
  | nil => exact fun _ _ _ n hn => absurd hn List.not_mem_nil
  | node l e r ihl ihr =>
    intro p hs hne n hn
    obtain ⟨hsl, hsr, hlow, hhigh⟩ := sorted_node hs
    rw [nodes_node, List.mem_append, List.mem_cons] at hn
    rw [place] at hne
    split_ifs at hne with hlt hnil hgt hnil
    · rcases hn with hn | rfl | hn
      · rw [isNil_iff.mp hnil] at hn
        exact absurd hn List.not_mem_nil
      · exact Int.ne_of_lt hlt
      · exact Int.ne_of_lt (hc.lt_of_lt_of_le hlt (Int.le_of_lt (hhigh n hn)))
    · rcases hn with hn | rfl | hn
      · exact ihl e.addr hsl hne n hn
      · exact Int.ne_of_lt hlt
      · exact Int.ne_of_lt (hc.lt_of_lt_of_le hlt (Int.le_of_lt (hhigh n hn)))
    · have hel : cmp e.item item < 0 := (hc.swap _ _).mpr hgt
      rcases hn with hn | rfl | hn
      · exact (Int.ne_of_lt ((hc.swap _ _).mp (hc.lt_of_lt_of_le (hlow n hn) (Int.le_of_lt hel)))).symm
      · exact (Int.ne_of_lt hgt).symm
      · rw [isNil_iff.mp hnil] at hn
        exact absurd hn List.not_mem_nil
    · have hel : cmp e.item item < 0 := (hc.swap _ _).mpr hgt
      rcases hn with hn | rfl | hn
      · exact (Int.ne_of_lt ((hc.swap _ _).mp (hc.lt_of_lt_of_le (hlow n hn) (Int.le_of_lt hel)))).symm
      · exact (Int.ne_of_lt hgt).symm
      · exact ihr e.addr hsr hne n hn
    · exact absurd rfl hne

theorem nodes_insert (hc : Consistent cmp) {new : Entry K} : ∀ {t : Avl K},
    Sorted (cmpNode cmp) (nodes t) →
    nodes (insert cmp new t) = sortedInsert (cmpNode cmp) (new.addr, new.item) (nodes t) := by
  intro t
  induction t with
  | nil => exact fun _ => rfl
  | node l e r ihl ihr =>
    intro hs
    obtain ⟨hsl, hsr, -, -⟩ := sorted_node hs
    rw [nodes_node] at hs ⊢
    rw [insert]
    split_ifs with hlt hnil hgt hnil
    · have hlt' : cmpNode cmp (new.addr, new.item) (e.addr, e.item) < 0 := hlt
      rw [sortedInsert_append_of_lt hlt', nodes_rebalance, isNil_iff.mp hnil]
      rfl
    · have hlt' : cmpNode cmp (new.addr, new.item) (e.addr, e.item) < 0 := hlt
      rw [sortedInsert_append_of_lt hlt', nodes_node, ihl hsl]
    · have hgt' : 0 < cmpNode cmp (new.addr, new.item) (e.addr, e.item) := hgt
      rw [sortedInsert_append_of_gt (cmpNode_consistent hc) hs hgt', nodes_rebalance,
        isNil_iff.mp hnil]
      simp [leaf, sortedInsert]
    · have hgt' : 0 < cmpNode cmp (new.addr, new.item) (e.addr, e.item) := hgt
      rw [sortedInsert_append_of_gt (cmpNode_consistent hc) hs hgt', nodes_node, ihr hsr]
    · have heq : cmpNode cmp (new.addr, new.item) (e.addr, e.item) = 0 := by
        simp only [cmpNode]
        omega
      rw [sortedInsert_of_mem (cmpNode_consistent hc) hs (by simp) heq, nodes_node]

/-! ### Insertion -/

/-- A node that is in memory, with null links, and not in the tree. -/
structure Fresh (m : Memory K) (new : Entry K) (t : Avl K) : Prop where
  nonnull : new.addr ≠ 0
  node : m.node new.addr = ⟨0, 0, new.depth, new.item⟩
  out : new.addr ∉ addrs t

theorem Rebuilt.mono {m m' : Memory K} {c : Cell} {s s' : List Nat} {t : Avl K}
    (h : Rebuilt m c s t m') (hs : ∀ x ∈ s, x ∈ s') : Rebuilt m c s' t m' :=
  ⟨h.stored, h.head, fun x hx => h.frame x fun hx' => hx (hs x hx')⟩

theorem Cell.Outside.mono {s s' : List Nat} {c : Cell} (h : c.Outside s) (hs : ∀ x ∈ s', x ∈ s) :
    c.Outside s' := by
  cases c with
  | treehead => trivial
  | link d p => exact ⟨h.1, fun hp => h.2 (hs p hp)⟩

/-- The new node is hung on the free side of a node. -/
theorem attach_here {fuel : Nat} {m : Memory K} {p : Nat} {d : Side} {e new : Entry K} {y : Avl K}
    (hfuel : y.height + 2 ≤ fuel) (hs : Stored m (join d .nil e y))
    (hnd : (addrs (join d .nil e y)).Nodup) (hnew : Fresh m new (join d .nil e y))
    (hc : (superparent m e.addr p).Outside (new.addr :: addrs (join d .nil e y)))
    (hlink : m.read (superparent m e.addr p) = e.addr) :
    ∃ m', attach d fuel m e.addr p new.addr = .ok (m', libNormal) ∧
      Rebuilt m (superparent m e.addr p) (new.addr :: addrs (join d .nil e y))
        (rebalance (join d (leaf new) e y)) m' := by
  obtain ⟨he, hn, -, hy⟩ := stored_join.mp hs
  have hout := hnew.out
  rw [mem_addrs_join] at hout
  rw [nodup_addrs_join] at hnd
  set m₁ := m.put e.addr ((m.node e.addr).setLink new.addr d) with hm₁
  have hset : ∀ z, z ∈ addrs (join d (leaf new) e y) ↔ z ∈ new.addr :: addrs (join d .nil e y) := by
    intro z
    simp [mem_addrs_join, leaf]
  have hs₁ : Stored m₁ (join d (leaf new) e y) := by
    refine stored_join.mpr ⟨he, by simp [hm₁, hn, leaf], ⟨hnew.nonnull, ?_, trivial, trivial⟩,
      hy.frame fun z hz => put_node_of_ne m _ (by grind)⟩
    rw [hm₁, put_node_of_ne m _ (by grind), hnew.node]
    rfl
  have hag : Agree m m₁ (addrs (join d (leaf new) e y)) :=
    ⟨rfl, fun z hz => put_node_of_ne m _ fun hze => hz (by simp [mem_addrs_join, hze])⟩
  have hc₁ := hc.mono fun z hz => (hset z).mp hz
  have hsup := hag.superparent hc₁
  have hspec := avlRebalance_spec (join d (leaf new) e y) fuel
    (by cases d <;> simp [join, leaf] <;> omega)
  obtain ⟨m', hm', hr⟩ := hspec m₁ p (by cases d <;> simp [join]) hs₁
    (nodup_addrs_join.mpr (by simp [leaf]; grind)) (by rw [root_join, hsup]; exact hc₁)
    (by rw [root_join, hsup, hag.read hc₁]; exact hlink)
  rw [root_join] at hm' hr
  rw [hsup] at hr
  refine ⟨m', ?_, (hr.of_agree hag hc₁).mono fun z hz => (hset z).mp hz⟩
  rw [attach, setLink_eq m d he, ok_bind, hm', ok_bind]
  rfl

/-- Below a node, an insertion changes nothing but the link to the subtree. -/
theorem Rebuilt.lift {m m' : Memory K} {p : Nat} {d : Side} {e new : Entry K} {x x' y : Avl K}
    (hs : Stored m (join d x e y)) (hnd : (addrs (join d x e y)).Nodup)
    (hout : new.addr ∉ addrs (join d x e y)) (hlink : m.read (superparent m e.addr p) = e.addr)
    (hr : Rebuilt m (.link d e.addr) (new.addr :: addrs x) x' m') :
    Rebuilt m (superparent m e.addr p) (new.addr :: addrs (join d x e y)) (join d x' e y) m' := by
  rw [nodup_addrs_join] at hnd
  rw [mem_addrs_join] at hout
  obtain ⟨hs', hag⟩ := hr.below hs (by grind) hnd.2.2.2.1 (by grind)
  have hid : m.linked (superparent m e.addr p) (root (join d x' e y)) = m := by
    rw [root_join]
    nth_rewrite 2 [← hlink]
    exact linked_read ..
  refine ⟨hs', by rw [hid]; exact hag.head, fun z hz => ?_⟩
  rw [hid]
  exact hag.node z (by simp only [List.mem_cons, mem_addrs_join] at hz ⊢; grind)

/-- What comes of the search and of the insertion where it ended. -/
def AttachOk (fuel : Nat) (m : Memory K) (c : Cell) (new : Entry K) (t t' : Avl K) :
    Found × Nat × Nat → Prop
  | (.same, _, _) => t' = t
  | (.before, n, q) => ∃ m', attach .left fuel m n q new.addr = .ok (m', libNormal) ∧
      Rebuilt m c (new.addr :: addrs t) t' m'
  | (.after, n, q) => ∃ m', attach .right fuel m n q new.addr = .ok (m', libNormal) ∧
      Rebuilt m c (new.addr :: addrs t) t' m'

theorem AttachOk.lift {fuel : Nat} {m : Memory K} {p : Nat} {d : Side} {e new : Entry K}
    {x x' y : Avl K} (hs : Stored m (join d x e y)) (hnd : (addrs (join d x e y)).Nodup)
    (hout : new.addr ∉ addrs (join d x e y)) (hlink : m.read (superparent m e.addr p) = e.addr) :
    ∀ {r : Found × Nat × Nat}, AttachOk fuel m (.link d e.addr) new x x' r →
      AttachOk fuel m (superparent m e.addr p) new (join d x e y) (join d x' e y) r
  | (.same, _, _), h => congrArg (fun x => join d x e y) h
  | (.before, _, _), ⟨m', hm', hr⟩ => ⟨m', hm', hr.lift hs hnd hout hlink⟩
  | (.after, _, _), ⟨m', hm', hr⟩ => ⟨m', hm', hr.lift hs hnd hout hlink⟩

variable (cmp) in
/-- The search in a subtree and the insertion where it ended make `insert` of the subtree. -/
def AttachSpec (fuel : Nat) (m : Memory K) (new : Entry K) (t : Avl K) : Prop :=
  ∀ p, t ≠ .nil → Stored m t → (addrs t).Nodup → Fresh m new t →
    (superparent m (root t) p).Outside (new.addr :: addrs t) →
    m.read (superparent m (root t) p) = root t →
    AttachOk fuel m (superparent m (root t) p) new t (insert cmp new t) (place cmp new.item t p)

theorem AttachSpec.below {fuel : Nat} {m : Memory K} {p : Nat} {d : Side} {e new : Entry K}
    {x y : Avl K} (ih : AttachSpec cmp fuel m new x) (hx : x ≠ .nil) (hs : Stored m (join d x e y))
    (hnd : (addrs (join d x e y)).Nodup) (hnew : Fresh m new (join d x e y))
    (hlink : m.read (superparent m e.addr p) = e.addr) :
    AttachOk fuel m (superparent m e.addr p) new (join d x e y) (join d (insert cmp new x) e y)
      (place cmp new.item x e.addr) := by
  have hsup := superparent_child hs hnd hx
  have hnd' := nodup_addrs_join.mp hnd
  have hout := hnew.out
  rw [mem_addrs_join] at hout
  obtain ⟨he, hn, hsx, -⟩ := stored_join.mp hs
  have h := ih e.addr hx hsx hnd'.1 ⟨hnew.nonnull, hnew.node, by grind⟩
    (by rw [hsup]; exact ⟨he, by grind⟩) (by rw [hsup]; simp [Memory.read, hn])
  rw [hsup] at h
  exact h.lift hs hnd hnew.out hlink

/-- **Insertion in memory** is `insert`, at every shape of the tree. -/
theorem attach_place {m : Memory K} {new : Entry K} : ∀ {t : Avl K} {fuel : Nat},
    t.height + 1 ≤ fuel → AttachSpec cmp fuel m new t := by
  intro t
  induction t with
  | nil => exact fun _ _ h => absurd rfl h
  | node l e r ihl ihr =>
    intro fuel hfuel p _ hs hnd hnew hc hlink
    rw [root_node] at hc hlink ⊢
    rw [Tree.height_node] at hfuel
    rw [place, insert]
    split_ifs with hlt hnil hgt hnil
    · obtain rfl := isNil_iff.mp hnil
      exact attach_here (d := .left) (by simp at hfuel; omega) hs hnd hnew hc hlink
    · exact AttachSpec.below (d := .left) (ihl (by omega)) (by simpa using hnil) hs hnd hnew hlink
    · obtain rfl := isNil_iff.mp hnil
      exact attach_here (d := .right) (by simp at hfuel; omega) hs hnd hnew hc hlink
    · exact AttachSpec.below (d := .right) (ihr (by omega)) (by simpa using hnil) hs hnd hnew hlink
    · rfl

/-! ### Whole trees -/

variable (cmp) in
/-- The memory holds the tree, whose keys are in order. -/
structure Holds (m : Memory K) (t : Avl K) : Prop where
  stored : Stored m t
  head : m.treehead = root t
  nodup : (addrs t).Nodup
  sorted : Sorted (cmpNode cmp) (nodes t)

def Call.entry (c : Call K) : Entry K := ⟨c.newNode, c.depth, c.symbol⟩

variable (cmp) in
/-- What a call of `lib$insert_tree` makes of a tree. -/
def inserted (t : Avl K) (c : Call K) : Avl K :=
  if c.Allocates then
    if isNil t then leaf ⟨c.newNode, 0, c.symbol⟩ else insert cmp c.entry t
  else t

theorem Stored.allocate {m : Memory K} {t : Avl K} {c : Call K} (h : Stored m t)
    (hc : c.newNode ∉ addrs t) : Stored (m.allocate c) t :=
  h.frame fun _ hx => Function.update_of_ne (ne_of_mem_of_not_mem hx hc) _ _

theorem nodes_inserted (hc : Consistent cmp) {t : Avl K} {c : Call K} (ha : c.Allocates)
    (hs : Sorted (cmpNode cmp) (nodes t)) :
    nodes (inserted cmp t c) = sortedInsert (cmpNode cmp) (c.newNode, c.symbol) (nodes t) := by
  rw [inserted, if_pos ha]
  split_ifs with hnil
  · rw [isNil_iff.mp hnil]
    rfl
  · exact nodes_insert hc hs

theorem nodup_sortedInsert {ns : List (Nat × K)} {a : Nat} {k : K} (hns : (ns.map Prod.fst).Nodup)
    (ha : a ∉ ns.map Prod.fst) (hc : Consistent cmp) (hs : Sorted (cmpNode cmp) ns) :
    ((sortedInsert (cmpNode cmp) (a, k) ns).map Prod.fst).Nodup := by
  by_cases hmem : ∃ n ∈ ns, cmpNode cmp (a, k) n = 0
  · obtain ⟨n, hn, heq⟩ := hmem
    rwa [sortedInsert_of_mem (cmpNode_consistent hc) hs hn heq]
  · have hperm : (sortedInsert (cmpNode cmp) (a, k) ns).Perm ((a, k) :: ns) :=
      perm_sortedInsert fun x hx h => hmem ⟨x, hx, h⟩
    exact ((hperm.map Prod.fst).nodup_iff).mpr (List.nodup_cons.mpr ⟨ha, hns⟩)

/-- The keys stay in order, and the nodes distinct. -/
theorem Holds.inserted (hc : Consistent cmp) {m m' : Memory K} {t : Avl K} {c : Call K}
    (h : Holds cmp m t) (ha : c.Allocates) (hnew : c.newNode ∉ addrs t)
    (hs : Stored m' (inserted cmp t c)) (hh : m'.treehead = root (inserted cmp t c)) :
    Holds cmp m' (inserted cmp t c) := by
  refine ⟨hs, hh, ?_, ?_⟩
  · rw [addrs_eq_map_nodes] at hnew ⊢
    rw [nodes_inserted hc ha h.sorted]
    exact nodup_sortedInsert (addrs_eq_map_nodes t ▸ h.nodup) hnew hc h.sorted
  · rw [nodes_inserted hc ha h.sorted]
    exact h.sorted.insert (cmpNode_consistent hc)

/-- An insertion into a tree that is not empty. -/
theorem avlInsertNode_spec (hc : Consistent cmp) {m : Memory K} {t : Avl K} {c : Call K}
    {fuel : Nat} (ht : t ≠ .nil) (hs : Stored m t) (hh : m.treehead = root t)
    (hnd : (addrs t).Nodup) (hsort : Sorted (cmpNode cmp) (nodes t)) (hfuel : t.height + 1 ≤ fuel)
    (hnew : Fresh m c.entry t) :
    ∃ m', avlInsertNode cmp fuel m c.newNode =
        .ok (m', if ∃ n ∈ nodes t, cmp c.symbol n.2 = 0 then libKeyalrins else libNormal) ∧
      Stored m' (insert cmp c.entry t) ∧ m'.treehead = root (insert cmp c.entry t) := by
  have hhead : m.treehead ≠ 0 := hh ▸ (root_eq_zero hs).not.mpr ht
  have hsearch : avlSearchClosest cmp fuel m c.symbol = .ok (place cmp c.symbol t 0) := by
    rw [avlSearchClosest, if_neg hhead, hh, searchLoop_eq 0 ht (by omega) hs]
  have hspec : AttachSpec cmp fuel m c.entry t := attach_place hfuel
  have hattach := hspec 0 ht hs hnd hnew trivial hh
  have hnode : m.load c.newNode = .ok ⟨0, 0, c.depth, c.symbol⟩ := by
    exact (load_eq m hnew.nonnull).trans (congrArg _ hnew.node)
  rw [avlInsertNode, if_neg hhead, hnode, ok_bind, hsearch, ok_bind]
  have habsent : (place cmp c.symbol t 0).1 ≠ .same → ∀ n ∈ nodes t, cmp c.symbol n.2 ≠ 0 :=
    place_absent hc 0 hsort
  have hfound : (place cmp c.symbol t 0).1 = .same →
      ∃ n ∈ nodes t, (place cmp c.symbol t 0).2.1 = n.1 ∧ cmp c.symbol n.2 = 0 :=
    place_found 0 ht
  change AttachOk fuel m .treehead c.entry t _ (place cmp c.symbol t 0) at hattach
  generalize place cmp c.symbol t 0 = r at hattach habsent hfound ⊢
  obtain ⟨f, n, q⟩ := r
  cases f with
  | same =>
    obtain ⟨n', hn', -, heq⟩ := hfound rfl
    rw [if_pos ⟨n', hn', heq⟩]
    have hid : insert cmp c.entry t = t := hattach
    rw [hid]
    exact ⟨m, rfl, hs, hh⟩
  | before =>
    rw [if_neg fun ⟨n', hn', heq⟩ => habsent nofun n' hn' heq]
    obtain ⟨m', hm', hr⟩ := hattach
    exact ⟨m', hm', hr.stored, hr.head⟩
  | after =>
    rw [if_neg fun ⟨n', hn', heq⟩ => habsent nofun n' hn' heq]
    obtain ⟨m', hm', hr⟩ := hattach
    exact ⟨m', hm', hr.stored, hr.head⟩

variable (cmp) in
/-- The status of a call of `lib$insert_tree`. -/
def insertStatus (t : Avl K) (c : Call K) : Nat :=
  if ¬ c.Allocates then libInsvirmem
  else if ∃ n ∈ nodes t, cmp c.symbol n.2 = 0 then libKeyalrins
  else libNormal

/-- **One call of `lib$insert_tree`.** -/
theorem insertTree_spec (hc : Consistent cmp) {m : Memory K} {t : Avl K} {c : Call K} {fuel : Nat}
    (h : Holds cmp m t) (hfuel : t.height + 1 ≤ fuel)
    (hnew : c.Allocates → c.newNode ≠ 0 ∧ c.newNode ∉ addrs t) :
    ∃ m', insertTree cmp fuel m c = .ok (m', insertStatus cmp t c) ∧
      Holds cmp m' (inserted cmp t c) := by
  by_cases ha : c.Allocates
  · obtain ⟨hne, hout⟩ := hnew ha
    suffices hsuff : ∃ m', insertTree cmp fuel m c = .ok (m', insertStatus cmp t c) ∧
        Stored m' (inserted cmp t c) ∧ m'.treehead = root (inserted cmp t c) by
      obtain ⟨m', hm', hs', hh'⟩ := hsuff
      exact ⟨m', hm', h.inserted hc ha hout hs' hh'⟩
    rw [insertTree, if_pos ha, insertStatus, if_neg (not_not.mpr ha), Tree.inserted, if_pos ha]
    by_cases ht : t = .nil
    · subst ht
      have hhead : (m.allocate c).treehead = 0 := h.head
      refine ⟨{ treehead := c.newNode, node := Function.update m.node c.newNode ⟨0, 0, 0, c.symbol⟩ },
        ?_, ⟨hne, Function.update_self .., trivial, trivial⟩, rfl⟩
      rw [avlInsertNode, if_pos hhead]
      simp [avlInsertTop, Memory.store, hne, Memory.allocate, bind, Except.bind, pure, Except.pure]
    · have hnil : ¬ isNil t = true := by rwa [isNil_iff]
      simp only [if_neg hnil]
      exact avlInsertNode_spec hc ht (h.stored.allocate hout) h.head h.nodup h.sorted hfuel
        ⟨hne, Function.update_self .., hout⟩
  · refine ⟨m, ?_, ?_⟩
    · rw [insertTree, if_neg ha, insertStatus, if_pos ha]
    · rw [Tree.inserted, if_neg ha]
      exact h

end Compare

end FreeVMS.Rtl.Tree
