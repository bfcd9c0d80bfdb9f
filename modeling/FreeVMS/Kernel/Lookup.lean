import FreeVMS.BTree.Search
import FreeVMS.BTree.Status
import FreeVMS.Lib.LinkRing
import FreeVMS.Lib.Run

/-!
# Looking up an object across boot

Until `sys$pd_init` has set `vms$pd_initialized`, memsections are only on the list
`internal_memsections`; afterwards they are in the tree of the object table and on the list of
their protection domain.  Slab pools are always put on `internal_memsections`.
`sys$objtable_lookup` searches the tree and then the list that `internal_memsections` is part
of.

The lists are circular and run through their heads: a head is a `struct memsection_list`, two
pointers that are read as the `next` and `prev` of a `struct memsection_node`.  What follows
them in memory is read as the bounds of a memsection.
-/

namespace FreeVMS.Kernel

open BTree LinkRing

/-- A list head or a node: `internal_memsections`, `memsections` of a protection domain (number 0
    is `freevms_pd`), and the nodes in the order of their creation. -/
inductive Ptr where
  | internal
  | pd (k : Nat)
  | node (n : Nat)
deriving DecidableEq, Repr

/-- The lists, what is read as the memsection of a node, the object table (`none` before
    `sys$objtable_init`), the pages for it, and `vms$pd_initialized`.  `created` are the memsections
    and pools made so far; the code keeps no such list. -/
structure Table where
  links : Links Ptr
  data : Ptr → Memsection
  count : Nat
  objtable : Option BTreeS
  pool : PagePool
  initialized : Bool
  created : List Memsection

/-- What comes after `freevms_pd.memsections`, at the address `p`, read as a memsection: the head
    of the list `freevms_pd.sessions`, which is empty and points to itself. -/
def overlay (p : Nat) : Memsection := ⟨p + 16, p + 16, p + 16⟩

/-- The loop of `sys$objtable_lookup`. -/
def walk (next : Ptr → Ptr) (data : Ptr → Memsection) (first : Ptr) (a : Nat) :
    Nat → Ptr → Option (Option Memsection)
  | 0, _ => none
  | fuel + 1, ms =>
      if next ms = first then some none
      else if btObjMatch (data ms) a then some (some (data ms))
      else walk next data first a fuel (next ms)

/-- `sys$objtable_lookup`; `none` when it does not return, `some none` for `NULL`.  A ring has at
    most two heads beside its nodes. -/
def objtableLookup (s : Table) (a : Nat) : Option (Option Memsection) :=
  match objBTSearch s.objtable a with
  | none => none
  | some (.notFound, _) | some (.invalid, _) =>
      walk s.links.next s.data (s.links.next .internal) a (s.count + 3) (s.links.next .internal)
  | some (_, o) => some o

section Code

variable (order p : Nat)

/-- `objtable_insert`. -/
def objtableInsert (s : Table) (o : Memsection) : Option (Int × Option BTreeS × PagePool) :=
  if s.initialized then
    match s.objtable with
    | none => some (-1, none, s.pool)
    | some t => (insert order t o s.pool).map fun r => (r.1, some r.2.1, r.2.2)
  else some (0, s.objtable, s.pool)

/-- A new node at the end of a list. -/
def Table.append (s : Table) (list : Ptr) (o : Memsection) : Table :=
  { s with
    links := s.links.append list (.node s.count)
    data := Function.update s.data (.node s.count) o
    count := s.count + 1
    created := o :: s.created }

/-- The loop of `sys$pd_init` that moves the nodes, heads included, to another list.  The object
    table is not touched: `vms$pd_initialized` is not yet set when `objtable_insert` looks at it. -/
def moveLoop (list first : Ptr) : Nat → Ptr → Links Ptr → Option (Links Ptr)
  | 0, _, _ => none
  | fuel + 1, node, L =>
      if L.next node = first then some (L.append list node)
      else moveLoop list first fuel (L.next node) (L.append list node)

/-- What happens to the lists and the table. -/
inductive TableCall where
  /-- `sys$pd_create_memsection` for a protection domain, with memory for `o` -/
  | create (pd : Nat) (o : Memsection)
  /-- `sys$memsection_create_cache` with memory for `o` -/
  | pool (o : Memsection)
  | objtableInit
  | pdInit

/-- One call, with `freevms_pd.memsections` at the address `p`; an error stands for a call that does
    not return. -/
def tableStep (c : TableCall) (s : Table) : Except Unit Table :=
  match c with
  | .create pd o =>
      match objtableInsert order s o with
      | none => .error ()
      | some (r, t, pool) =>
          if r = 0 then
            .ok ({ s with objtable := t, pool := pool }.append
              (if s.initialized then .pd pd else .internal) o)
          else .ok { s with objtable := t, pool := pool }
  | .pool o => .ok (s.append .internal o)
  | .objtableInit => .ok { s with objtable := some emptyTree }
  | .pdInit =>
      let L : Links Ptr := ⟨Function.update s.links.next (.pd 0) (.pd 0),
        Function.update s.links.prev (.pd 0) (.pd 0)⟩
      match moveLoop (.pd 0) (L.next .internal) (s.count + 1) (L.next .internal) L with
      | none => .error ()
      | some L' => .ok { s with
          links := L'
          data := Function.update s.data (.pd 0) (overlay p)
          initialized := true }

end Code

/-! ### The two loops -/

/-- What the search of the list returns: the first of its memsections that contains the
    address. -/
def firstMatch (data : Ptr → Memsection) (a : Nat) (v : List Ptr) : Option Memsection :=
  (v.map data).find? fun o => btObjMatch o a

theorem walk_from {next : Ptr → Ptr} {data : Ptr → Memsection} {first h : Ptr} {a : Nat}
    (hstop : next h = first) :
    ∀ (r : List Ptr) (x : Ptr) (fuel : Nat), Path next x r h → (∀ y ∈ x :: r, next y ≠ first) →
      r.length + 1 < fuel →
      walk next data first a fuel x = some (firstMatch data a (x :: r)) := by
  intro r
  induction r with
  | nil =>
    intro x fuel hpath hne hfuel
    obtain ⟨fuel, rfl⟩ : ∃ k, fuel = k + 2 := ⟨fuel - 2, by simp only [List.length_nil] at hfuel; omega⟩
    have hx : next x = h := hpath
    rw [walk, if_neg (hne x List.mem_cons_self), hx, walk, if_pos hstop]
    simp only [firstMatch, List.map_cons, List.map_nil, List.find?_cons, List.find?_nil]
    cases btObjMatch (data x) a <;> rfl
  | cons y r ih =>
    intro x fuel hpath hne hfuel
    obtain ⟨fuel, rfl⟩ : ∃ k, fuel = k + 1 := ⟨fuel - 1, by omega⟩
    have hrest := ih y fuel hpath.2 (fun z hz => hne z (List.mem_cons_of_mem _ hz))
      (by simp only [List.length_cons] at hfuel; omega)
    rw [walk, if_neg (hne x List.mem_cons_self), hpath.1, hrest]
    simp only [firstMatch, List.map_cons, List.find?_cons]
    cases btObjMatch (data x) a <;> rfl

/-- The loop visits every cell of the ring but the head, and ends there. -/
theorem walk_ring {L : Links Ptr} {data : Ptr → Memsection} {h : Ptr} {v : List Ptr} {a fuel : Nat}
    (hv : Hangs L h v) (hfuel : v.length + 1 < fuel) :
    walk L.next data (L.next h) a fuel (L.next h) = some (firstMatch data a v) := by
  cases v with
  | nil =>
    have hself : L.next h = h := hv.path
    obtain ⟨fuel, rfl⟩ : ∃ k, fuel = k + 1 := ⟨fuel - 1, by omega⟩
    rw [hself, walk, if_pos hself]
    rfl
  | cons f r =>
    obtain ⟨hf, hpath⟩ := hv.path
    obtain ⟨hh, hnodup⟩ := List.nodup_cons.mp hv.nodup
    rw [hf]
    refine walk_from hf r f fuel hpath (fun y hy heq => ?_)
      (by simp only [List.length_cons] at hfuel; omega)
    have hmem := hpath.next_mem y hy
    rw [heq] at hmem
    rcases List.mem_append.mp hmem with hmem | hmem
    · exact (List.nodup_cons.mp hnodup).1 hmem
    · exact hh (List.mem_singleton.mp hmem ▸ List.mem_cons_self)

/-- The cells `x :: r` are moved one by one behind those of `m`. -/
theorem moveLoop_spec {list first : Ptr} :
    ∀ (r : List Ptr) (x : Ptr) (m : List Ptr) (L : Links Ptr) (fuel : Nat), Hangs L list m →
      Path L.next x r first → first ∉ r → (list :: (m ++ x :: r)).Nodup → r.length < fuel →
      ∃ L', moveLoop list first fuel x L = some L' ∧ Hangs L' list (m ++ x :: r) ∧
        L'.prev (lastOf x r) = lastOf list (m ++ (x :: r).dropLast) ∧
        ∀ g, g ∉ list :: (m ++ x :: r) → L'.prev g = L.prev g := by
  intro r
  induction r with
  | nil =>
    intro x m L fuel hm hpath _ hnodup hfuel
    obtain ⟨fuel, rfl⟩ : ∃ k, fuel = k + 1 := ⟨fuel - 1, by omega⟩
    have hx : x ∉ list :: m := by
      have := List.nodup_append.mp (show ((list :: m) ++ [x]).Nodup from hnodup)
      exact fun hmem => this.2.2 x hmem x List.mem_cons_self rfl
    have hne : x ≠ list := fun heq => hx (heq ▸ List.mem_cons_self)
    have hlast : L.next x = first := hpath
    refine ⟨L.append list x, by rw [moveLoop, if_pos hlast], hm.append hx, ?_, fun g hg => ?_⟩
    · show (L.append list x).prev x = lastOf list (m ++ [])
      rw [L.append_prev_node hne, hm.last, List.append_nil]
    · exact L.append_prev_of_ne (fun heq => hg (heq ▸ List.mem_cons_self)) fun heq =>
        hg (heq ▸ List.mem_cons_of_mem _ (List.mem_append_right _ List.mem_cons_self))
  | cons y r ih =>
    intro x m L fuel hm hpath hfirst hnodup hfuel
    obtain ⟨fuel, rfl⟩ : ∃ k, fuel = k + 1 := ⟨fuel - 1, by omega⟩
    have hparts := List.nodup_append.mp (show ((list :: m) ++ x :: y :: r).Nodup from hnodup)
    have hx : x ∉ list :: m := fun hmem => hparts.2.2 x hmem x List.mem_cons_self rfl
    obtain ⟨hxr, -⟩ := List.nodup_cons.mp hparts.2.1
    have hnext : L.next x ≠ first := by
      rw [hpath.1]
      exact fun heq => hfirst (heq ▸ List.mem_cons_self)
    -- the cells still to be moved keep their successors
    have hrest : Path (L.append list x).next y r first := hpath.2.congr fun z hz => by
      refine L.append_next_of_ne (fun heq => ?_) fun heq => hxr (heq ▸ hz)
      rw [hm.last] at heq
      exact hparts.2.2 _ (lastOf_mem list m) z (List.mem_cons_of_mem _ hz) heq.symm
    have hcat : (m ++ [x]) ++ y :: r = m ++ x :: y :: r := List.append_assoc m [x] (y :: r)
    obtain ⟨L', h1, h2, h3, h4⟩ := ih y (m ++ [x]) (L.append list x) fuel (hm.append hx) hrest
      (fun hmem => hfirst (List.mem_cons_of_mem _ hmem)) (by rw [hcat]; exact hnodup)
      (by simp only [List.length_cons] at hfuel; omega)
    rw [hcat] at h2 h4
    refine ⟨L', by rw [moveLoop, if_neg hnext, hpath.1]; exact h1, h2, ?_, fun g hg => ?_⟩
    · rw [List.dropLast_cons_cons]
      rw [List.append_assoc] at h3
      exact h3
    · rw [h4 g hg]
      exact L.append_prev_of_ne (fun heq => hg (heq ▸ List.mem_cons_self)) fun heq =>
        hg (heq ▸ List.mem_cons_of_mem _ (List.mem_append_right _ List.mem_cons_self))

/-! ### The lists as they grow -/

/-- From `internal_memsections` the ring runs through the cells `v`, and the lists of the other
    protection domains are apart from it. -/
structure Lists (s : Table) (v : List Ptr) : Prop where
  hangs : Hangs s.links .internal v
  cells : ∀ x ∈ v, x = .pd 0 ∨ ∃ n < s.count, x = .node n
  others : ∀ k, s.links.prev (.pd (k + 1)) = .pd (k + 1) ∨
    ∃ n < s.count, s.links.prev (.pd (k + 1)) = .node n ∧ .node n ∉ v

section

variable {s : Table} {v : List Ptr}

theorem Lists.fresh (h : Lists s v) : .node s.count ∉ Ptr.internal :: v := by
  intro hmem
  rcases List.mem_cons.mp hmem with heq | hmem
  · cases heq
  · rcases h.cells _ hmem with heq | ⟨n, hn, heq⟩
    · cases heq
    · have : s.count = n := Ptr.node.inj heq
      omega

theorem Lists.pd_not_mem (h : Lists s v) (k : Nat) : Ptr.pd (k + 1) ∉ Ptr.internal :: v := by
  intro hmem
  rcases List.mem_cons.mp hmem with heq | hmem
  · cases heq
  · rcases h.cells _ hmem with heq | ⟨n, -, heq⟩
    · cases heq
    · cases heq

/-- The lists of the other domains after an insertion into the ring. -/
theorem Lists.others_append (h : Lists s v) {list : Ptr} (hlist : ∀ k, list ≠ .pd (k + 1))
    {v' : List Ptr} (hv' : ∀ x ∈ v', x = .node s.count ∨ x ∈ v) (o : Memsection) (k : Nat) :
    (s.append list o).links.prev (.pd (k + 1)) = .pd (k + 1) ∨
      ∃ n < (s.append list o).count, (s.append list o).links.prev (.pd (k + 1)) = .node n ∧
        .node n ∉ v' := by
  have hsame : (s.append list o).links.prev (.pd (k + 1)) = s.links.prev (.pd (k + 1)) :=
    s.links.append_prev_of_ne (fun heq => hlist k heq.symm) fun heq => by cases heq
  rw [hsame]
  rcases h.others k with heq | ⟨n, hn, heq, hout⟩
  · exact Or.inl heq
  · refine Or.inr ⟨n, Nat.lt_succ_of_lt hn, heq, fun hmem => ?_⟩
    rcases hv' _ hmem with hnew | hold
    · have := Ptr.node.inj hnew
      omega
    · exact hout hold

theorem cells_append (h : Lists s v) {v' : List Ptr} (hv' : ∀ x ∈ v', x = .node s.count ∨ x ∈ v) :
    ∀ x ∈ v', x = .pd 0 ∨ ∃ n < s.count + 1, x = .node n := by
  intro x hx
  rcases hv' x hx with rfl | hx
  · exact Or.inr ⟨s.count, Nat.lt_succ_self _, rfl⟩
  · rcases h.cells x hx with heq | ⟨n, hn, heq⟩
    · exact Or.inl heq
    · exact Or.inr ⟨n, Nat.lt_succ_of_lt hn, heq⟩

theorem Lists.append_internal (h : Lists s v) (o : Memsection) :
    Lists (s.append .internal o) (v ++ [.node s.count]) := by
  have hv' : ∀ x ∈ v ++ [Ptr.node s.count], x = .node s.count ∨ x ∈ v := by
    intro x hx
    rcases List.mem_append.mp hx with hx | hx
    · exact Or.inr hx
    · exact Or.inl (List.mem_singleton.mp hx)
  exact ⟨h.hangs.append h.fresh, cells_append h hv',
    h.others_append (fun k heq => by cases heq) hv' o⟩

theorem Lists.append_pd {l₂ l₁ : List Ptr} (h : Lists s (l₂ ++ .pd 0 :: l₁))
    (hprev : s.links.prev (.pd 0) = lastOf .internal l₂) (o : Memsection) :
    Lists (s.append (.pd 0) o) (l₂ ++ .node s.count :: .pd 0 :: l₁) := by
  have hv' : ∀ x ∈ l₂ ++ Ptr.node s.count :: .pd 0 :: l₁,
      x = .node s.count ∨ x ∈ l₂ ++ .pd 0 :: l₁ := by
    intro x hx
    rcases List.mem_append.mp hx with hx | hx
    · exact Or.inr (List.mem_append_left _ hx)
    · rcases List.mem_cons.mp hx with hx | hx
      · exact Or.inl hx
      · exact Or.inr (List.mem_append_right _ hx)
  exact ⟨h.hangs.append_inner hprev h.fresh, cells_append h hv',
    h.others_append (fun k heq => by simp at heq) hv' o⟩

theorem Lists.append_other (h : Lists s v) (k : Nat) (o : Memsection) :
    Lists (s.append (.pd (k + 1)) o) v := by
  have hprev : s.links.prev (.pd (k + 1)) ∉ Ptr.internal :: v := by
    rcases h.others k with heq | ⟨n, -, heq, hout⟩
    · rw [heq]
      exact h.pd_not_mem k
    · rw [heq]
      intro hmem
      rcases List.mem_cons.mp hmem with hno | hmem
      · cases hno
      · exact hout hmem
  refine ⟨h.hangs.append_other (h.pd_not_mem k) hprev h.fresh,
    cells_append h fun x hx => Or.inr hx, fun j => ?_⟩
  by_cases hj : j = k
  · subst hj
    refine Or.inr ⟨s.count, Nat.lt_succ_self _, s.links.append_prev_self _ _, fun hmem => ?_⟩
    exact h.fresh (List.mem_cons_of_mem _ hmem)
  · have hne : Ptr.pd (j + 1) ≠ .pd (k + 1) := fun heq => hj (by simpa using heq)
    have hsame : (s.append (.pd (k + 1)) o).links.prev (.pd (j + 1)) = s.links.prev (.pd (j + 1)) :=
      s.links.append_prev_of_ne hne fun heq => by cases heq
    rw [hsame]
    rcases h.others j with heq | ⟨n, hn, heq, hout⟩
    · exact Or.inl heq
    · exact Or.inr ⟨n, Nat.lt_succ_of_lt hn, heq, hout⟩

/-- Memsection `o` is in one of the cells. -/
def Listed (s : Table) (v : List Ptr) (o : Memsection) : Prop :=
  ∃ n, .node n ∈ v ∧ s.data (.node n) = o

theorem data_append (list : Ptr) (o : Memsection) {x : Ptr} (hx : x ≠ .node s.count) :
    (s.append list o).data x = s.data x := Function.update_of_ne hx _ _

/-- What is on the lists after an insertion. -/
theorem listed_append (h : Lists s v) (list : Ptr) (o : Memsection) {v' : List Ptr}
    (hv' : ∀ x, x ∈ v' ↔ x = .node s.count ∨ x ∈ v) (x : Memsection) :
    Listed (s.append list o) v' x ↔ x = o ∨ Listed s v x := by
  have hold : ∀ n, .node n ∈ v → (s.append list o).data (.node n) = s.data (.node n) :=
    fun n hn => data_append list o fun heq => h.fresh (heq ▸ List.mem_cons_of_mem _ hn)
  constructor
  · rintro ⟨n, hn, rfl⟩
    rcases (hv' _).mp hn with heq | hn
    · rw [heq]
      exact Or.inl (Function.update_self _ _ _)
    · exact Or.inr ⟨n, hn, (hold n hn).symm⟩
  · rintro (rfl | ⟨n, hn, rfl⟩)
    · exact ⟨s.count, (hv' _).mpr (Or.inl rfl), Function.update_self _ _ _⟩
    · exact ⟨n, (hv' _).mpr (Or.inr hn), hold n hn⟩

theorem listed_append_other (h : Lists s v) (list : Ptr) (o x : Memsection) :
    Listed (s.append list o) v x ↔ Listed s v x := by
  have hold : ∀ n, .node n ∈ v → (s.append list o).data (.node n) = s.data (.node n) :=
    fun n hn => data_append list o fun heq => h.fresh (heq ▸ List.mem_cons_of_mem _ hn)
  constructor
  · rintro ⟨n, hn, rfl⟩
    exact ⟨n, hn, (hold n hn).symm⟩
  · rintro ⟨n, hn, rfl⟩
    exact ⟨n, hn, hold n hn⟩

end

end FreeVMS.Kernel
