import FreeVMS.Rtl.Tree

/-!
# What the tree routines do to the tree

The nodes in memory are read as a tree of entries.  On such trees rebalancing and insertion are
recursive functions, and the routines of `libbintree.c` compute them for every shape of the tree
and every stored depth: they follow no null link, end, and write nothing but the nodes of the subtree
and the cell that holds the link to it.
-/

namespace FreeVMS.Rtl.Tree

open SearchTree

variable {K σ : Type}

/-! ### Trees in memory -/

/-- A node of the tree: its address, its stored depth and its key. -/
structure Entry (K : Type) where
  addr : Nat
  depth : UInt16
  item : K

abbrev Avl (K : Type) : Type := SearchTree.Tree (Entry K)

/-- The link to a tree. -/
def root : Avl K → Nat
  | .nil => 0
  | .node _ e _ => e.addr

/-- The stored depth of a tree. -/
def depthOf : Avl K → Nat
  | .nil => 0
  | .node _ e _ => e.depth.toNat

def addrs (t : Avl K) : List Nat := t.toList.map Entry.addr

/-- The nodes in order, without their depths. -/
def nodes (t : Avl K) : List (Nat × K) := t.toList.map fun e => (e.addr, e.item)

/-- The nodes of the tree are in memory. -/
def Stored (m : Memory K) : Avl K → Prop
  | .nil => True
  | .node l e r =>
      e.addr ≠ 0 ∧ m.node e.addr = ⟨root l, root r, e.depth, e.item⟩ ∧ Stored m l ∧ Stored m r

@[simp] theorem root_nil : root (.nil : Avl K) = 0 := rfl
@[simp] theorem root_node (l r : Avl K) (e : Entry K) : root (.node l e r) = e.addr := rfl
@[simp] theorem depthOf_nil : depthOf (.nil : Avl K) = 0 := rfl
@[simp] theorem depthOf_node (l r : Avl K) (e : Entry K) :
    depthOf (.node l e r) = e.depth.toNat := rfl
@[simp] theorem addrs_nil : addrs (.nil : Avl K) = [] := rfl
@[simp] theorem nodes_nil : nodes (.nil : Avl K) = [] := rfl

@[simp] theorem addrs_node (l r : Avl K) (e : Entry K) :
    addrs (.node l e r) = addrs l ++ e.addr :: addrs r := by
  simp [addrs]

@[simp] theorem nodes_node (l r : Avl K) (e : Entry K) :
    nodes (.node l e r) = nodes l ++ (e.addr, e.item) :: nodes r := by
  simp [nodes]

theorem addrs_eq_map_nodes (t : Avl K) : addrs t = (nodes t).map Prod.fst := by
  simp [addrs, nodes]

@[simp] theorem stored_nil (m : Memory K) : Stored m .nil := trivial

theorem root_eq_zero {m : Memory K} {t : Avl K} (h : Stored m t) : root t = 0 ↔ t = .nil := by
  cases t with
  | nil => simp
  | node l e r => simpa using h.1

theorem root_mem {t : Avl K} (h : t ≠ .nil) : root t ∈ addrs t := by
  cases t with
  | nil => exact absurd rfl h
  | node l e r => simp

theorem Stored.frame {m m' : Memory K} {t : Avl K} (h : Stored m t)
    (hm : ∀ x ∈ addrs t, m'.node x = m.node x) : Stored m' t := by
  induction t with
  | nil => trivial
  | node l e r ihl ihr =>
    obtain ⟨hne, hnode, hl, hr⟩ := h
    refine ⟨hne, ?_, ihl hl fun x hx => hm x ?_, ihr hr fun x hx => hm x ?_⟩
    · rw [hm e.addr (by simp), hnode]
    · simp [hx]
    · simp [hx]

theorem Stored.nodeDepth {m : Memory K} {t : Avl K} (h : Stored m t) :
    m.nodeDepth (root t) = depthOf t := by
  cases t with
  | nil => rfl
  | node l e r => simp [Memory.nodeDepth, h.1, h.2.1]

/-- The memory and the link determine the tree. -/
theorem Stored.unique {m : Memory K} : ∀ {t t' : Avl K}, Stored m t → Stored m t' →
    root t = root t' → t = t' := by
  intro t
  induction t with
  | nil =>
    intro t' _ h' hroot
    exact ((root_eq_zero h').mp hroot.symm).symm
  | node l e r ihl ihr =>
    intro t' h h' hroot
    cases t' with
    | nil => exact absurd hroot h.1
    | node l' e' r' =>
      obtain ⟨hne, hnode, hl, hr⟩ := h
      obtain ⟨hne', hnode', hl', hr'⟩ := h'
      obtain ⟨addr, depth, item⟩ := e
      obtain ⟨addr', depth', item'⟩ := e'
      obtain rfl : addr = addr' := hroot
      obtain ⟨hrl, hrr, rfl, rfl⟩ := AvlNode.mk.inj (hnode.symm.trans hnode')
      rw [ihl hl hl' hrl, ihr hr hr' hrr]

/-! ### Sides

The rotations are the same for both sides, so the trees are written with a side too. -/

/-- The node with `x` on the side and `y` on the other one. -/
def join (d : Side) (x : Avl K) (e : Entry K) (y : Avl K) : Avl K :=
  match d with
  | .left => .node x e y
  | .right => .node y e x

/-- The same for the links in memory. -/
def sided (d : Side) (x y : Nat) (depth : UInt16) (item : K) : AvlNode K :=
  match d with
  | .left => ⟨x, y, depth, item⟩
  | .right => ⟨y, x, depth, item⟩

@[simp] theorem link_sided (d : Side) (x y : Nat) (depth : UInt16) (item : K) :
    (sided d x y depth item).link d = x := by
  cases d <;> rfl

@[simp] theorem link_other_sided (d : Side) (x y : Nat) (depth : UInt16) (item : K) :
    (sided d x y depth item).link d.other = y := by
  cases d <;> rfl

@[simp] theorem setLink_sided (d : Side) (x y v : Nat) (depth : UInt16) (item : K) :
    (sided d x y depth item).setLink v d = sided d v y depth item := by
  cases d <;> rfl

@[simp] theorem setLink_other_sided (d : Side) (x y v : Nat) (depth : UInt16) (item : K) :
    (sided d x y depth item).setLink v d.other = sided d x v depth item := by
  cases d <;> rfl

@[simp] theorem root_join (d : Side) (x y : Avl K) (e : Entry K) : root (join d x e y) = e.addr := by
  cases d <;> rfl

theorem mem_addrs_join {d : Side} {x y : Avl K} {e : Entry K} {a : Nat} :
    a ∈ addrs (join d x e y) ↔ a ∈ addrs x ∨ a = e.addr ∨ a ∈ addrs y := by
  cases d with
  | left => simp [join]
  | right => simp [join]; tauto

theorem nodup_addrs_join {d : Side} {x y : Avl K} {e : Entry K} :
    (addrs (join d x e y)).Nodup ↔ (addrs x).Nodup ∧ (addrs y).Nodup ∧ e.addr ∉ addrs x ∧
      e.addr ∉ addrs y ∧ ∀ a ∈ addrs x, a ∉ addrs y := by
  cases d with
  | left => simp [join, List.nodup_append, List.nodup_cons]; grind
  | right => simp [join, List.nodup_append, List.nodup_cons]; grind

theorem stored_join {m : Memory K} {d : Side} {x y : Avl K} {e : Entry K} :
    Stored m (join d x e y) ↔ e.addr ≠ 0 ∧
      m.node e.addr = sided d (root x) (root y) e.depth e.item ∧ Stored m x ∧ Stored m y := by
  cases d with
  | left => exact Iff.rfl
  | right => simp [join, sided, Stored, and_comm]

/-! ### Links -/

/-- The memory with a node replaced. -/
def Memory.put (m : Memory K) (p : Nat) (n : AvlNode K) : Memory K :=
  { m with node := Function.update m.node p n }

@[simp] theorem put_node_self (m : Memory K) (p : Nat) (n : AvlNode K) :
    (m.put p n).node p = n := Function.update_self ..

@[simp] theorem put_node_of_ne (m : Memory K) {p x : Nat} (n : AvlNode K) (h : x ≠ p) :
    (m.put p n).node x = m.node x := Function.update_of_ne h ..

@[simp] theorem put_put (m : Memory K) (p : Nat) (n n' : AvlNode K) :
    (m.put p n).put p n' = m.put p n' := by
  simp [Memory.put]

/-- The memory after `*c = v`. -/
def Memory.linked (m : Memory K) (c : Cell) (v : Nat) : Memory K :=
  match c with
  | .treehead => { m with treehead := v }
  | .link d p => m.put p ((m.node p).setLink v d)

/-- The link that a cell holds. -/
def Memory.read (m : Memory K) : Cell → Nat
  | .treehead => m.treehead
  | .link d p => (m.node p).link d

theorem linked_read (m : Memory K) (c : Cell) : m.linked c (m.read c) = m := by
  cases c with
  | treehead => rfl
  | link d p => cases d <;> simp [Memory.linked, Memory.read, Memory.put, AvlNode.setLink, AvlNode.link]

/-- The cell is `*treehead`, or in a node that is not one of those given. -/
def Cell.Outside (s : List Nat) : Cell → Prop
  | .treehead => True
  | .link _ p => p ≠ 0 ∧ p ∉ s

theorem setCell_eq {s : List Nat} {c : Cell} (h : c.Outside s) (m : Memory K) (v : Nat) :
    m.setCell c v = .ok (m.linked c v) := by
  cases c with
  | treehead => rfl
  | link d p => exact if_neg h.1

theorem linked_node {s : List Nat} {c : Cell} (h : c.Outside s) (m : Memory K) (v : Nat) {x : Nat}
    (hx : x ∈ s) : (m.linked c v).node x = m.node x := by
  cases c with
  | treehead => rfl
  | link d p => exact put_node_of_ne m _ (ne_of_mem_of_not_mem hx h.2)

theorem put_linked {s : List Nat} {c : Cell} (h : c.Outside s) (m : Memory K) (v : Nat) {x : Nat}
    (hx : x ∈ s) (n : AvlNode K) : (m.put x n).linked c v = (m.linked c v).put x n := by
  cases c with
  | treehead => rfl
  | link d p =>
    have hpx : x ≠ p := ne_of_mem_of_not_mem hx h.2
    simp [Memory.linked, Memory.put, hpx.symm, Function.update_comm hpx]

/-- The memory `m'` holds the tree `t` in place of the nodes `s` of `m`, and the cell links to it. -/
structure Rebuilt (m : Memory K) (c : Cell) (s : List Nat) (t : Avl K) (m' : Memory K) : Prop where
  stored : Stored m' t
  head : m'.treehead = (m.linked c (root t)).treehead
  frame : ∀ x, x ∉ s → m'.node x = (m.linked c (root t)).node x

/-! ### Rebalancing -/

/-- The depth that `CALC_DEPTH` gives a node. -/
def calcDepth (x y : Avl K) : UInt16 := UInt16.ofNat (max (depthOf x) (depthOf y) + 1)

/-- A node with that depth. -/
def mk (d : Side) (x : Avl K) (addr : Nat) (item : K) (y : Avl K) : Avl K :=
  join d x ⟨addr, calcDepth x y, item⟩ y

/-- What the rotations make of a node with the heavy subtree `x`. -/
def rotated (d : Side) (x : Avl K) (addr : Nat) (item : K) (y : Avl K) : Avl K :=
  match x with
  | .nil => mk d x addr item y
  | .node l b r =>
      let xx := if d = .left then l else r
      let xy := if d = .left then r else l
      if depthOf xy ≤ depthOf xx then mk d xx b.addr b.item (mk d xy addr item y)
      else
        match xy with
        | .nil => mk d x addr item y
        | .node l' g r' =>
            let u := if d = .left then l' else r'
            let v := if d = .left then r' else l'
            mk d (mk d xx b.addr b.item u) g.addr g.item (mk d v addr item y)

/-- What the block of `avl_rebalance` after the recursive calls makes of a node. -/
def balance (l : Avl K) (addr : Nat) (item : K) (r : Avl K) : Avl K :=
  if depthOf r + 1 < depthOf l then rotated .left l addr item r
  else if depthOf l + 1 < depthOf r then rotated .right r addr item l
  else mk .left l addr item r

/-- What `avl_rebalance` makes of a subtree. -/
def rebalance : Avl K → Avl K
  | .nil => .nil
  | .node l e r => balance (rebalance l) e.addr e.item (rebalance r)

theorem calcDepth_comm (x y : Avl K) : calcDepth x y = calcDepth y x := by
  rw [calcDepth, calcDepth, Nat.max_comm]

@[simp] theorem root_mk (d : Side) (x y : Avl K) (a : Nat) (k : K) : root (mk d x a k y) = a :=
  root_join ..

@[simp] theorem nodes_mk_left (x y : Avl K) (a : Nat) (k : K) :
    nodes (mk .left x a k y) = nodes x ++ (a, k) :: nodes y := by
  simp [mk, join]

@[simp] theorem nodes_mk_right (x y : Avl K) (a : Nat) (k : K) :
    nodes (mk .right x a k y) = nodes y ++ (a, k) :: nodes x := by
  simp [mk, join]

theorem nodes_rotated_left (x y : Avl K) (a : Nat) (k : K) :
    nodes (rotated .left x a k y) = nodes x ++ (a, k) :: nodes y := by
  cases x with
  | nil => simp [rotated]
  | node l b r =>
    simp only [rotated, if_true]
    split
    · simp
    · cases r <;> simp

theorem nodes_rotated_right (x y : Avl K) (a : Nat) (k : K) :
    nodes (rotated .right x a k y) = nodes y ++ (a, k) :: nodes x := by
  cases x with
  | nil => simp [rotated]
  | node l b r =>
    simp only [rotated, reduceCtorEq, if_false]
    split
    · simp
    · cases l <;> simp

/-- **Rebalancing keeps the nodes** and their order, whatever the shape and the stored depths. -/
@[simp] theorem nodes_rebalance (t : Avl K) : nodes (rebalance t) = nodes t := by
  induction t with
  | nil => rfl
  | node l e r ihl ihr =>
    rw [rebalance, balance, nodes_node, ← ihl, ← ihr]
    split
    · exact nodes_rotated_left ..
    · split
      · exact nodes_rotated_right ..
      · exact nodes_mk_left ..

@[simp] theorem addrs_rebalance (t : Avl K) : addrs (rebalance t) = addrs t := by
  rw [addrs_eq_map_nodes, nodes_rebalance, ← addrs_eq_map_nodes]

/-! ### Rebalancing in memory -/

theorem ok_bind {α β : Type} (a : α) (f : α → Except Fault β) :
    ((.ok a : Except Fault α) >>= f) = f a := rfl

theorem load_eq (m : Memory K) {p : Nat} (h : p ≠ 0) : m.load p = .ok (m.node p) := if_neg h

theorem setLink_eq (m : Memory K) (d : Side) {p : Nat} (h : p ≠ 0) (v : Nat) :
    m.setLink d p v = .ok (m.put p ((m.node p).setLink v d)) := if_neg h

theorem sideDepth_eq {m : Memory K} {d : Side} {p : Nat} (h : p ≠ 0) {x : Avl K}
    (hn : (m.node p).link d = root x) (hs : Stored m x) : m.sideDepth d p = .ok (depthOf x) := by
  rw [Memory.sideDepth, load_eq m h, ← hs.nodeDepth, ← hn]
  rfl

/-- A node whose subtrees are in place gets its depth. -/
theorem updateDepth_mk {m : Memory K} (d : Side) {x y : Avl K} {a : Nat} {depth : UInt16} {k : K}
    (ha : a ≠ 0) (hn : m.node a = sided d (root x) (root y) depth k) (hx : Stored m x)
    (hy : Stored m y) (hax : a ∉ addrs x) (hay : a ∉ addrs y) :
    ∃ m', m.updateDepth a = .ok m' ∧ Stored m' (mk d x a k y) ∧ m'.treehead = m.treehead ∧
      ∀ z, z ≠ a → m'.node z = m.node z := by
  refine ⟨m.put a (sided d (root x) (root y) (calcDepth x y) k), ?_,
    stored_join.mpr ⟨ha, put_node_self .., hx.frame fun z hz => ?_, hy.frame fun z hz => ?_⟩, rfl,
    fun z hz => put_node_of_ne m _ hz⟩
  · have hmax : ∀ p q : Nat, (if p > q then p else q) = max p q := by
      intro p q
      split <;> omega
    cases d with
    | left =>
      simp only [Memory.updateDepth, Memory.calcDepth, Memory.lDepth, Memory.rDepth, bind,
        Except.bind, sideDepth_eq ha (by rw [hn]; rfl) hx (d := .left),
        sideDepth_eq ha (by rw [hn]; rfl) hy (d := .right), pure, Except.pure, hmax,
        Memory.setDepth, Memory.store, if_neg ha, hn]
      rfl
    | right =>
      simp only [Memory.updateDepth, Memory.calcDepth, Memory.lDepth, Memory.rDepth, bind,
        Except.bind, sideDepth_eq ha (by rw [hn]; rfl) hy (d := .left),
        sideDepth_eq ha (by rw [hn]; rfl) hx (d := .right), pure, Except.pure, hmax,
        Memory.setDepth, Memory.store, if_neg ha, hn, calcDepth_comm x y]
      rfl
  · exact put_node_of_ne m _ (ne_of_mem_of_not_mem hz hax)
  · exact put_node_of_ne m _ (ne_of_mem_of_not_mem hz hay)

theorem rotate_single {m : Memory K} {c : Cell} {d : Side} {x y z : Avl K} {a b : Entry K}
    (h : Stored m (join d (join d x b y) a z)) (hnd : (addrs (join d (join d x b y) a z)).Nodup)
    (hc : c.Outside (addrs (join d (join d x b y) a z))) (hge : depthOf y ≤ depthOf x) :
    ∃ m', rotate d m c a.addr = .ok m' ∧ Rebuilt m c (addrs (join d (join d x b y) a z))
      (mk d x b.addr b.item (mk d y a.addr a.item z)) m' := by
  have hM : Stored (m.linked c b.addr) (join d (join d x b y) a z) :=
    h.frame fun p hp => linked_node hc m _ hp
  simp only [stored_join] at h hM
  obtain ⟨ha, hna, ⟨hb, hnb, hx, hy⟩, hz⟩ := h
  have hina : a.addr ∈ addrs (join d (join d x b y) a z) := by simp [mem_addrs_join]
  have hinb : b.addr ∈ addrs (join d (join d x b y) a z) := by simp [mem_addrs_join]
  simp only [nodup_addrs_join, mem_addrs_join] at hnd
  have hba : b.addr ≠ a.addr := by grind
  have hlinks : rotate d m c a.addr =
      ((((m.linked c b.addr).put a.addr (sided d (root y) (root z) a.depth a.item)).put b.addr
        (sided d (root x) a.addr b.depth b.item)).updateDepth a.addr >>=
          fun m => m.updateDepth b.addr) := by
    simp only [rotate, load_eq m ha, hna, root_join, link_sided, bind, Except.bind,
      sideDepth_eq hb (by rw [hnb, link_sided]) hx,
      sideDepth_eq hb (by rw [hnb, link_other_sided]) hy, ge_iff_le, if_pos hge, load_eq m hb, hnb,
      link_other_sided, setLink_eq _ _ ha, setLink_eq _ _ hb, put_node_of_ne _ _ hba, setLink_sided,
      setLink_other_sided, setCell_eq hc, put_linked hc _ _ hina, put_linked hc _ _ hinb]
  rw [hlinks]
  obtain ⟨-, -, ⟨-, -, hx, hy⟩, hz⟩ := hM
  set m₁ := ((m.linked c b.addr).put a.addr (sided d (root y) (root z) a.depth a.item)).put b.addr
    (sided d (root x) a.addr b.depth b.item)
  have hm₁ : ∀ p, p ≠ a.addr → p ≠ b.addr → m₁.node p = (m.linked c b.addr).node p := by
    intro p hpa hpb
    simp [m₁, hpa, hpb]
  obtain ⟨m₂, h₂, hs₂, hh₂, hf₂⟩ := updateDepth_mk (m := m₁) d (x := y) (y := z) (k := a.item) ha
    (by simp [m₁, hba.symm]; rfl) (hy.frame fun p hp => hm₁ p (by grind) (by grind))
    (hz.frame fun p hp => hm₁ p (by grind) (by grind)) (by grind) (by grind)
  obtain ⟨m₃, h₃, hs₃, hh₃, hf₃⟩ := updateDepth_mk (m := m₂) d (x := x)
    (y := mk d y a.addr a.item z) (k := b.item) hb (by rw [hf₂ _ hba]; simp [m₁]; rfl)
    (hx.frame fun p hp => by rw [hf₂ p (by grind), hm₁ p (by grind) (by grind)]) hs₂
    (by grind) (by rw [mk, mem_addrs_join]; grind)
  refine ⟨m₃, by simp [h₂, bind, Except.bind, h₃], hs₃, ?_, fun p hp => ?_⟩
  · rw [hh₃, hh₂, root_mk]
    rfl
  · simp only [mem_addrs_join] at hp
    rw [root_mk, hf₃ p (by grind), hf₂ p (by grind), hm₁ p (by grind) (by grind)]

theorem rotate_double {m : Memory K} {c : Cell} {d : Side} {x u v z : Avl K} {a b g : Entry K}
    (h : Stored m (join d (join d x b (join d u g v)) a z))
    (hnd : (addrs (join d (join d x b (join d u g v)) a z)).Nodup)
    (hc : c.Outside (addrs (join d (join d x b (join d u g v)) a z)))
    (hlt : depthOf x < depthOf (join d u g v)) :
    ∃ m', rotate d m c a.addr = .ok m' ∧
      Rebuilt m c (addrs (join d (join d x b (join d u g v)) a z))
        (mk d (mk d x b.addr b.item u) g.addr g.item (mk d v a.addr a.item z)) m' := by
  have hM : Stored (m.linked c g.addr) (join d (join d x b (join d u g v)) a z) :=
    h.frame fun p hp => linked_node hc m _ hp
  have hchild : Stored m (join d u g v) := (stored_join.mp (stored_join.mp h).2.2.1).2.2.2
  simp only [stored_join] at h hM
  obtain ⟨ha, hna, ⟨hb, hnb, hx, hg, hng, hu, hv⟩, hz⟩ := h
  have hina : a.addr ∈ addrs (join d (join d x b (join d u g v)) a z) := by simp [mem_addrs_join]
  have hinb : b.addr ∈ addrs (join d (join d x b (join d u g v)) a z) := by simp [mem_addrs_join]
  have hing : g.addr ∈ addrs (join d (join d x b (join d u g v)) a z) := by simp [mem_addrs_join]
  simp only [nodup_addrs_join, mem_addrs_join] at hnd
  have hba : b.addr ≠ a.addr := by grind
  have hga : g.addr ≠ a.addr := by grind
  have hgb : g.addr ≠ b.addr := by grind
  have hlinks : rotate d m c a.addr =
      (((((m.linked c g.addr).put a.addr (sided d (root v) (root z) a.depth a.item)).put b.addr
        (sided d (root x) (root u) b.depth b.item)).put g.addr
          (sided d b.addr a.addr g.depth g.item)).updateDepth a.addr >>= fun m =>
            m.updateDepth b.addr >>= fun m => m.updateDepth g.addr) := by
    simp only [rotate, load_eq m ha, hna, root_join, link_sided, bind, Except.bind,
      sideDepth_eq hb (by rw [hnb, link_sided]) hx,
      sideDepth_eq hb (by rw [hnb, link_other_sided]) hchild, ge_iff_le, if_neg (Nat.not_le.mpr hlt),
      load_eq m hb, hnb, link_other_sided, load_eq m hg, load_eq _ hg, hng, setLink_eq _ _ ha,
      setLink_eq _ _ hb, setLink_eq _ _ hg, put_node_of_ne _ _ hba, put_node_of_ne _ _ hga,
      put_node_of_ne _ _ hgb, put_node_self, put_put, setLink_sided, setLink_other_sided,
      setCell_eq hc, put_linked hc _ _ hina, put_linked hc _ _ hinb, put_linked hc _ _ hing]
  rw [hlinks]
  obtain ⟨-, -, ⟨-, -, hx, -, -, hu, hv⟩, hz⟩ := hM
  set m₁ := (((m.linked c g.addr).put a.addr (sided d (root v) (root z) a.depth a.item)).put b.addr
    (sided d (root x) (root u) b.depth b.item)).put g.addr (sided d b.addr a.addr g.depth g.item)
  have hm₁ : ∀ p, p ≠ a.addr → p ≠ b.addr → p ≠ g.addr →
      m₁.node p = (m.linked c g.addr).node p := by
    intro p hpa hpb hpg
    simp [m₁, hpa, hpb, hpg]
  obtain ⟨m₂, h₂, hs₂, hh₂, hf₂⟩ := updateDepth_mk (m := m₁) d (x := v) (y := z) (k := a.item) ha
    (by simp [m₁, hba.symm, hga.symm]; rfl)
    (hv.frame fun p hp => hm₁ p (by grind) (by grind) (by grind))
    (hz.frame fun p hp => hm₁ p (by grind) (by grind) (by grind)) (by grind) (by grind)
  obtain ⟨m₃, h₃, hs₃, hh₃, hf₃⟩ := updateDepth_mk (m := m₂) d (x := x) (y := u) (k := b.item) hb
    (by rw [hf₂ _ hba]; simp [m₁, hgb.symm]; rfl)
    (hx.frame fun p hp => by rw [hf₂ p (by grind), hm₁ p (by grind) (by grind) (by grind)])
    (hu.frame fun p hp => by rw [hf₂ p (by grind), hm₁ p (by grind) (by grind) (by grind)])
    (by grind) (by grind)
  have hs₂' : Stored m₃ (mk d v a.addr a.item z) :=
    hs₂.frame fun p hp => hf₃ p (by rw [mk, mem_addrs_join] at hp; grind)
  obtain ⟨m₄, h₄, hs₄, hh₄, hf₄⟩ := updateDepth_mk (m := m₃) d (x := mk d x b.addr b.item u)
    (y := mk d v a.addr a.item z) (k := g.item) hg
    (by rw [hf₃ _ hgb, hf₂ _ hga]; simp [m₁]; rfl) hs₃ hs₂'
    (by rw [mk, mem_addrs_join]; grind) (by rw [mk, mem_addrs_join]; grind)
  refine ⟨m₄, by simp [h₂, bind, Except.bind, h₃, h₄], hs₄, ?_, fun p hp => ?_⟩
  · rw [hh₄, hh₃, hh₂, root_mk]
    rfl
  · simp only [mem_addrs_join] at hp
    rw [root_mk, hf₄ p (by grind), hf₃ p (by grind), hf₂ p (by grind),
      hm₁ p (by grind) (by grind) (by grind)]

theorem nil_or_join (d : Side) (x : Avl K) : x = .nil ∨ ∃ p e q, x = join d p e q := by
  cases x with
  | nil => exact .inl rfl
  | node l e r =>
    cases d with
    | left => exact .inr ⟨l, e, r, rfl⟩
    | right => exact .inr ⟨r, e, l, rfl⟩

theorem rotated_single {d : Side} {x y z : Avl K} {b : Entry K} {a : Nat} {k : K}
    (h : depthOf y ≤ depthOf x) :
    rotated d (join d x b y) a k z = mk d x b.addr b.item (mk d y a k z) := by
  cases d <;> simp [join, rotated, h]

theorem rotated_double {d : Side} {x u v z : Avl K} {b g : Entry K} {a : Nat} {k : K}
    (h : depthOf x < depthOf (join d u g v)) :
    rotated d (join d x b (join d u g v)) a k z =
      mk d (mk d x b.addr b.item u) g.addr g.item (mk d v a k z) := by
  cases d <;> simp [join, rotated] at h ⊢ <;> omega

theorem rotate_rotated {m : Memory K} {c : Cell} {d : Side} {x y : Avl K} {a : Entry K}
    (h : Stored m (join d x a y)) (hnd : (addrs (join d x a y)).Nodup)
    (hc : c.Outside (addrs (join d x a y))) (hlt : depthOf y + 1 < depthOf x) :
    ∃ m', rotate d m c a.addr = .ok m' ∧
      Rebuilt m c (addrs (join d x a y)) (rotated d x a.addr a.item y) m' := by
  -- a stored depth that is not 0 is one of a node, so the links that are followed are not null
  rcases nil_or_join d x with rfl | ⟨p, b, q, rfl⟩
  · exact absurd hlt (by simp)
  · by_cases hge : depthOf q ≤ depthOf p
    · rw [rotated_single hge]
      exact rotate_single h hnd hc hge
    · rw [Nat.not_le] at hge
      rcases nil_or_join d q with rfl | ⟨u, g, v, rfl⟩
      · exact absurd hge (by simp)
      · rw [rotated_double hge]
        exact rotate_double h hnd hc hge

theorem avlCheckBalance_eq {m : Memory K} {l r : Avl K} {e : Entry K} (h : Stored m (.node l e r)) :
    avlCheckBalance m e.addr = .ok (if depthOf r + 1 < depthOf l then .leftHeavy
      else if depthOf l + 1 < depthOf r then .rightHeavy else .even) := by
  obtain ⟨he, hn, hl, hr⟩ := h
  simp only [avlCheckBalance, Memory.lDepth, Memory.rDepth, bind, Except.bind,
    sideDepth_eq he (by rw [hn]; rfl) hl (d := .left),
    sideDepth_eq he (by rw [hn]; rfl) hr (d := .right), pure, Except.pure]
  grind

theorem rebalanceNode_spec {m : Memory K} {l r : Avl K} {e : Entry K} {p : Nat}
    (h : Stored m (.node l e r)) (hnd : (addrs (.node l e r)).Nodup)
    (hc : (superparent m e.addr p).Outside (addrs (.node l e r)))
    (hlink : m.read (superparent m e.addr p) = e.addr) :
    ∃ m', rebalanceNode m e.addr p = .ok m' ∧
      Rebuilt m (superparent m e.addr p) (addrs (.node l e r)) (balance l e.addr e.item r) m' := by
  simp only [rebalanceNode, avlCheckBalance_eq h, bind, Except.bind, balance]
  split_ifs with hl hr
  · exact rotate_rotated (d := .left) h hnd hc hl
  · have := rotate_rotated (d := .right) (x := r) (y := l) h hnd hc hr
    exact this
  · obtain ⟨he, hn, hsl, hsr⟩ := h
    rw [addrs_node, List.nodup_append, List.nodup_cons] at hnd
    obtain ⟨m', hm', hs, hh, hf⟩ := updateDepth_mk .left he hn hsl hsr (by grind) (by grind)
    refine ⟨m', hm', hs, ?_, fun x hx => ?_⟩
    · rw [root_mk, hh]
      nth_rewrite 2 [← hlink]
      rw [linked_read]
    · rw [root_mk, hf x (by rw [addrs_node] at hx; grind)]
      nth_rewrite 2 [← hlink]
      rw [linked_read]

/-- Only the nodes `s` differ. -/
structure Agree (m m' : Memory K) (s : List Nat) : Prop where
  head : m'.treehead = m.treehead
  node : ∀ x, x ∉ s → m'.node x = m.node x

theorem Agree.trans {m m' m'' : Memory K} {s : List Nat} (h : Agree m m' s) (h' : Agree m' m'' s) :
    Agree m m'' s :=
  ⟨h'.head.trans h.head, fun x hx => (h'.node x hx).trans (h.node x hx)⟩

theorem Agree.mono {m m' : Memory K} {s s' : List Nat} (h : Agree m m' s) (hs : ∀ x ∈ s, x ∈ s') :
    Agree m m' s' :=
  ⟨h.head, fun x hx => h.node x fun hx' => hx (hs x hx')⟩

theorem Agree.superparent {m m' : Memory K} {s : List Nat} {a p : Nat} (h : Agree m m' s)
    (hp : (superparent m a p).Outside s) : superparent m' a p = superparent m a p := by
  by_cases hp0 : p = 0
  · simp [Tree.superparent, hp0]
  · have hps : p ∉ s := by
      simp only [Tree.superparent, if_pos hp0, ne_eq] at hp
      split_ifs at hp <;> exact hp.2
    simp [Tree.superparent, h.node p hps]

theorem Agree.read {m m' : Memory K} {s : List Nat} {c : Cell} (h : Agree m m' s)
    (hc : c.Outside s) : m'.read c = m.read c := by
  cases c with
  | treehead => exact h.head
  | link d p => simp [Memory.read, h.node p hc.2]

theorem Rebuilt.of_agree {m m' m'' : Memory K} {c : Cell} {s : List Nat} {t : Avl K}
    (h : Agree m m' s) (hc : c.Outside s) (hr : Rebuilt m' c s t m'') : Rebuilt m c s t m'' := by
  refine ⟨hr.stored, hr.head.trans ?_, fun x hx => (hr.frame x hx).trans ?_⟩
  · cases c with
    | treehead => rfl
    | link d p => exact h.head
  · cases c with
    | treehead => exact h.node x hx
    | link d p =>
      by_cases hxp : x = p
      · subst hxp
        simp [Memory.linked, h.node x hx]
      · simp [Memory.linked, hxp, h.node x hx]

/-- A subtree that is rebuilt below its node. -/
theorem Rebuilt.below {m m' : Memory K} {d : Side} {s : List Nat} {x x' y : Avl K} {e : Entry K}
    (h : Stored m (join d x e y)) (hes : e.addr ∉ s) (hey : e.addr ∉ addrs y)
    (hys : ∀ z ∈ addrs y, z ∉ s) (hr : Rebuilt m (.link d e.addr) s x' m') :
    Stored m' (join d x' e y) ∧ Agree m m' (e.addr :: s) := by
  obtain ⟨he, hn, hx, hy⟩ := stored_join.mp h
  refine ⟨stored_join.mpr ⟨he, ?_, hr.stored, hy.frame fun z hz => ?_⟩, hr.head, fun z hz => ?_⟩
  · rw [hr.frame _ hes]
    simp [Memory.linked, hn]
  · rw [hr.frame z (hys z hz)]
    simp [Memory.linked, ne_of_mem_of_not_mem hz hey]
  · rw [List.mem_cons, not_or] at hz
    rw [hr.frame z hz.2]
    simp [Memory.linked, hz.1]

theorem superparent_child {m : Memory K} {d : Side} {x y : Avl K} {e : Entry K}
    (h : Stored m (join d x e y)) (hnd : (addrs (join d x e y)).Nodup) (hx : x ≠ .nil) :
    superparent m (root x) e.addr = .link d e.addr := by
  obtain ⟨he, hn, hsx, hsy⟩ := stored_join.mp h
  cases d with
  | left => simp [superparent, he, hn, sided]
  | right =>
    have hne : root x ≠ root y := by
      rw [nodup_addrs_join] at hnd
      by_cases hy : y = .nil
      · subst hy
        simpa using (root_eq_zero hsx).not.mpr hx
      · intro heq
        exact hnd.2.2.2.2 _ (root_mem hx) (heq ▸ root_mem hy)
    simp [superparent, he, hn, sided, hne]

/-- What `avl_rebalance` does, called for a subtree and its parent: it ends without following a null
    link, rebalances the subtree, links the cell that held the link to the old root to the new one,
    and writes to nothing else. -/
def RebalanceOk (fuel : Nat) (t : Avl K) : Prop :=
  ∀ (m : Memory K) (p : Nat), t ≠ .nil → Stored m t → (addrs t).Nodup →
    (superparent m (root t) p).Outside (addrs t) → m.read (superparent m (root t) p) = root t →
    ∃ m', avlRebalance fuel m (root t) p = .ok m' ∧
      Rebuilt m (superparent m (root t) p) (addrs t) (rebalance t) m'

/-- The recursive call for a side. -/
theorem rebalance_child {fuel : Nat} {m : Memory K} {d : Side} {x y : Avl K} {e : Entry K}
    (ih : RebalanceOk fuel x) (hs : Stored m (join d x e y)) (hnd : (addrs (join d x e y)).Nodup) :
    ∃ m', (if (m.node e.addr).link d ≠ 0 then
        avlRebalance fuel m ((m.node e.addr).link d) e.addr else .ok m) = .ok m' ∧
      Stored m' (join d (rebalance x) e y) ∧ Agree m m' (addrs (join d x e y)) := by
  obtain ⟨he, hn, hsx, hsy⟩ := stored_join.mp hs
  have hlink : (m.node e.addr).link d = root x := by rw [hn, link_sided]
  rw [hlink]
  by_cases hx : x = .nil
  · subst hx
    exact ⟨m, by simp, hs, rfl, fun _ _ => rfl⟩
  · have hsup := superparent_child hs hnd hx
    have hnd' := nodup_addrs_join.mp hnd
    obtain ⟨m', hm', hr⟩ := ih m e.addr hx hsx hnd'.1 (by rw [hsup]; exact ⟨he, hnd'.2.2.1⟩)
      (by rw [hsup]; exact hlink)
    rw [hsup] at hr
    obtain ⟨hs', hag⟩ := hr.below hs hnd'.2.2.1 hnd'.2.2.2.1 (by grind)
    refine ⟨m', ?_, hs', hag.mono fun z hz => ?_⟩
    · rw [if_pos ((root_eq_zero hsx).not.mpr hx), hm']
    · rw [mem_addrs_join]
      grind

/-- **Rebalancing in memory** is `rebalance`, for every subtree. -/
theorem avlRebalance_spec : ∀ (t : Avl K) (fuel : Nat), t.height ≤ fuel → RebalanceOk fuel t := by
  intro t
  induction t with
  | nil => exact fun _ _ _ _ h => absurd rfl h
  | node l e r ihl ihr =>
    intro fuel hfuel m p _ hs hnd hc hlink
    rw [Tree.height_node] at hfuel
    obtain ⟨fuel, rfl⟩ : ∃ f, fuel = f + 1 := ⟨fuel - 1, by omega⟩
    rw [root_node] at hc hlink ⊢
    obtain ⟨m₁, h₁, hs₁, ha₁⟩ := rebalance_child (d := .left)
      (ihl fuel (by omega)) hs hnd
    obtain ⟨m₂, h₂, hs₂, ha₂⟩ := rebalance_child (d := .right) (x := r) (y := rebalance l)
      (ihr fuel (by omega)) hs₁ (by simpa [join] using hnd)
    have hset : addrs (.node (rebalance l) e (rebalance r)) = addrs (.node l e r) := by simp
    have hag : Agree m m₂ (addrs (.node l e r)) := ha₁.trans (by simpa [join] using ha₂)
    have hsup := hag.superparent hc
    obtain ⟨m₃, h₃, hr₃⟩ := rebalanceNode_spec (p := p) hs₂ (hset ▸ hnd)
      (by rw [hset, hsup]; exact hc) (by rw [hsup, hag.read hc]; exact hlink)
    refine ⟨m₃, ?_, ?_⟩
    · have h₁' : (if (m.node e.addr).left ≠ 0 then
          avlRebalance fuel m (m.node e.addr).left e.addr else .ok m) = .ok m₁ := h₁
      have h₂' : (if (m₁.node e.addr).right ≠ 0 then
          avlRebalance fuel m₁ (m₁.node e.addr).right e.addr else .ok m₁) = .ok m₂ := h₂
      rw [avlRebalance, load_eq m hs.1, ok_bind, h₁', ok_bind, load_eq m₁ hs.1, ok_bind, h₂',
        ok_bind, h₃]
    · rw [hset, hsup] at hr₃
      exact hr₃.of_agree hag hc

end FreeVMS.Rtl.Tree
