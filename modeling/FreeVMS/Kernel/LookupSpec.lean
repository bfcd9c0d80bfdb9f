import FreeVMS.Kernel.Lookup

/-!
# Lookups find what was created

After every sequence of creations around `sys$pd_init`, a memsection is in the tree or in a
cell of the ring that `sys$objtable_lookup` walks through.  The one cell of the ring that is
visited and is no memsection is the head of `freevms_pd.memsections`.
-/

namespace FreeVMS.Kernel

open BTree LinkRing Run IntervalList

/-- The objects in the tree. -/
def treeObjs (s : Table) : List Memsection :=
  match s.objtable with
  | some t => objs t.root
  | none => []

/-- Before and after `sys$pd_init`.  The cells in front of the head of `freevms_pd.memsections` were
    created afterwards and are in the tree too. -/
inductive Phase (p : Nat) (s : Table) (v : List Ptr) : Prop
  | booting (hinit : s.initialized = false) (hhead : .pd 0 ∉ v) (hlen : v.length ≤ s.count)
      (htree : treeObjs s = [])
  | booted (l₂ l₁ : List Ptr) (hinit : s.initialized = true) (hcells : v = l₂ ++ .pd 0 :: l₁)
      (hprev : s.links.prev (.pd 0) = lastOf .internal l₂) (hlen : v.length ≤ s.count + 1)
      (hfront : ∀ n, .node n ∈ l₂ → s.data (.node n) ∈ treeObjs s)
      (htable : ∃ t, s.objtable = some t) (hover : s.data (.pd 0) = overlay p)

/-- The invariant of the object table and its lists. -/
structure TInv (order p : Nat) (s : Table) (v : List Ptr) : Prop where
  lists : Lists s v
  pages : ∀ i, s.pool.grant i ≠ none
  kept : ∀ t, s.objtable = some t → Kept order (minKey order) t
  contents : ∀ o, o ∈ s.created ↔ o ∈ treeObjs s ∨ Listed s v o
  real : ∀ o ∈ s.created, o.base ≤ o.end_ ∧ o.addr ≠ p + 16
  phase : Phase p s v

/-- A new memsection: it does not overlap the ones that are there, and lies in a slab. -/
structure Fresh (p : Nat) (s : Table) (o : Memsection) : Prop where
  proper : o.base ≤ o.end_
  disjoint : ∀ x ∈ s.created, ¬ Meets o x
  addr : o.addr ≠ p + 16

/-- The calls in the order of `sys_main.c`, with disjoint memsections, and too few of them to split
    an inner page. -/
def TableCall.Legal (order p : Nat) (s : Table) : TableCall → Prop
  | .create _ o => Fresh p s o ∧ ∀ t, s.objtable = some t → innerSplit order o t.root = false
  | .pool o => Fresh p s o
  | .objtableInit => s.initialized = false
  | .pdInit => s.initialized = false ∧ s.objtable ≠ none

/-- `sys$objtable_lookup` returns, with the created memsection that contains the address or with
    `NULL` when there is none. -/
def LookupCorrect (s : Table) (a : Nat) : Prop :=
  match objtableLookup s a with
  | none => False
  | some none => ¬ ∃ o ∈ s.created, o.Contains a
  | some (some o) => o ∈ s.created ∧ o.Contains a

/-- `freevms_pd.memsections` at the address `p`, nothing created yet. -/
def Table.init (pool : PagePool) : Table where
  links := ⟨id, id⟩
  data _ := ⟨0, 0, 0⟩
  count := 0
  objtable := none
  pool := pool
  initialized := false
  created := []

section

variable {order p : Nat} {s : Table} {v : List Ptr} {o : Memsection}

theorem Fresh.real (h : Fresh p s o) (hreal : ∀ x ∈ s.created, x.base ≤ x.end_ ∧ x.addr ≠ p + 16) :
    ∀ x ∈ o :: s.created, x.base ≤ x.end_ ∧ x.addr ≠ p + 16 := by
  intro x hx
  rcases List.mem_cons.mp hx with rfl | hx
  · exact ⟨h.proper, h.addr⟩
  · exact hreal x hx

theorem tinv_init {pool : PagePool} (hpool : ∀ i, pool.grant i ≠ none) :
    TInv order p (Table.init pool) [] := by
  refine ⟨⟨⟨rfl, List.nodup_singleton _, rfl⟩, fun x hx => absurd hx List.not_mem_nil,
    fun k => Or.inl rfl⟩, hpool, fun t ht => ?_, fun o => ?_, fun o ho => absurd ho List.not_mem_nil,
    .booting rfl List.not_mem_nil (Nat.le_refl _) rfl⟩
  · exact absurd ht (by simp [Table.init])
  · constructor
    · exact fun ho => absurd ho List.not_mem_nil
    · rintro (ho | ⟨n, hn, -⟩)
      · exact absurd ho List.not_mem_nil
      · exact absurd hn List.not_mem_nil

/-- A pool, or a memsection before `sys$pd_init`, goes to the end of `internal_memsections`. -/
theorem TInv.append_internal (h : TInv order p s v) (ho : Fresh p s o) :
    TInv order p (s.append .internal o) (v ++ [.node s.count]) := by
  have hmem : ∀ x, x ∈ v ++ [Ptr.node s.count] ↔ x = .node s.count ∨ x ∈ v := fun x => by
    rw [List.mem_append, List.mem_singleton, or_comm]
  refine ⟨h.lists.append_internal o, h.pages, h.kept, fun x => ?_, ho.real h.real, ?_⟩
  · rw [listed_append h.lists .internal o hmem]
    show x ∈ o :: s.created ↔ x ∈ treeObjs s ∨ _
    rw [List.mem_cons, h.contents x]
    tauto
  · have hlen : (v ++ [Ptr.node s.count]).length = v.length + 1 := List.length_append
    cases h.phase with
    | booting hinit hhead hle htree =>
      refine .booting hinit (fun hx => ?_) (by rw [hlen]; exact Nat.succ_le_succ hle) htree
      rcases (hmem _).mp hx with heq | hx
      · cases heq
      · exact hhead hx
    | booted l₂ l₁ hinit hcells hprev hle hfront htable hover =>
      refine .booted l₂ (l₁ ++ [.node s.count]) hinit (by rw [hcells, List.append_assoc]; rfl) ?_
        (by rw [hlen]; exact Nat.succ_le_succ hle) (fun n hn => ?_) htable ?_
      · rw [← hprev]
        exact s.links.append_prev_of_ne (fun heq => by cases heq) fun heq => by cases heq
      · have hv : Ptr.node n ∈ v := hcells ▸ List.mem_append_left _ hn
        rw [data_append .internal o fun heq => h.lists.fresh (heq ▸ List.mem_cons_of_mem _ hv)]
        exact hfront n hn
      · rw [data_append .internal o fun heq => by cases heq]
        exact hover

theorem clear_of_fresh (h : TInv order p s v) (ho : Fresh p s o) {t : BTreeS}
    (ht : s.objtable = some t) : Clear Memsection.base Memsection.end_ o (objs t.root) := by
  intro x hx
  have hcr : x ∈ s.created := (h.contents x).mpr (Or.inl (by rw [treeObjs, ht]; exact hx))
  by_contra hno
  exact ho.disjoint x hcr ((meets_iff_not_apart ho.proper (h.real x hcr).1).mpr hno)

/-- `objtable_insert` once `vms$pd_initialized` is set. -/
theorem TInv.insert (hv : ValidOrder order) (h : TInv order p s v) (ho : Fresh p s o)
    {t : BTreeS} (hinit : s.initialized = true) (ht : s.objtable = some t)
    (hinner : innerSplit order o t.root = false) :
    ∃ t' pool', objtableInsert order s o = some (0, some t', pool') ∧ Kept order (minKey order) t' ∧
      (∀ x, x ∈ objs t'.root ↔ x = o ∨ x ∈ objs t.root) ∧ ∀ i, pool'.grant i ≠ none := by
  obtain ⟨out, hout, hkept, hperm, hgrant, hok⟩ := (h.kept t ht).insert_clear hv (Nat.le_refl _)
    ho.proper (clear_of_fresh h ho ht) (medianSplit_of_innerSplit hinner) .null h.pages
  obtain ⟨r, hr, hzero⟩ := insert_code_zero_iff hout
  obtain rfl := hzero.mpr hok
  refine ⟨out.btree, out.pool, ?_, hkept, fun x => ?_, fun i => ?_⟩
  · rw [objtableInsert, if_pos hinit, ht]
    simp only [hr, Option.map_some]
  · rw [hperm.mem_iff, List.mem_cons]
  · rw [hgrant]
    exact h.pages i

/-- The state between the two halves of a call: the memsection is in the tree and not yet in the list
    of its domain.  `l₂` stands in front of the head of `freevms_pd.memsections`. -/
structure Midway (order p : Nat) (s : Table) (l₂ l₁ : List Ptr) (o : Memsection) : Prop where
  lists : Lists s (l₂ ++ .pd 0 :: l₁)
  pages : ∀ i, s.pool.grant i ≠ none
  kept : ∀ t, s.objtable = some t → Kept order (minKey order) t
  stored : o ∈ treeObjs s
  contents : ∀ x, x ∈ o :: s.created ↔ x ∈ treeObjs s ∨ Listed s (l₂ ++ .pd 0 :: l₁) x
  real : ∀ x ∈ o :: s.created, x.base ≤ x.end_ ∧ x.addr ≠ p + 16
  initialized : s.initialized = true
  last : s.links.prev (.pd 0) = lastOf .internal l₂
  short : (l₂ ++ .pd 0 :: l₁).length ≤ s.count + 1
  front : ∀ n, .node n ∈ l₂ → s.data (.node n) ∈ treeObjs s
  table : ∃ t, s.objtable = some t
  overlaid : s.data (.pd 0) = overlay p

theorem TInv.midway (h : TInv order p s v) (ho : Fresh p s o) {t t' : BTreeS} {pool' : PagePool}
    (hinit : s.initialized = true) (ht : s.objtable = some t) (hkept : Kept order (minKey order) t')
    (hobjs : ∀ x, x ∈ objs t'.root ↔ x = o ∨ x ∈ objs t.root) (hpool : ∀ i, pool'.grant i ≠ none) :
    ∃ l₂ l₁, Midway order p { s with objtable := some t', pool := pool' } l₂ l₁ o := by
  have htree : ∀ x, x ∈ treeObjs { s with objtable := some t', pool := pool' } ↔
      x = o ∨ x ∈ treeObjs s := by
    intro x
    have hs : treeObjs s = objs t.root := by rw [treeObjs, ht]
    rw [hs]
    exact hobjs x
  cases h.phase with
  | booting hno => rw [hinit] at hno; cases hno
  | booted l₂ l₁ _ hcells hprev hlen hfront _ hover =>
    subst hcells
    refine ⟨l₂, l₁, ⟨h.lists.hangs, h.lists.cells, h.lists.others⟩, hpool, fun t'' ht'' => ?_,
      (htree o).mpr (Or.inl rfl), fun x => ?_, ho.real h.real, hinit, hprev, hlen,
      fun n hn => (htree _).mpr (Or.inr (hfront n hn)), ⟨t', rfl⟩, hover⟩
    · obtain rfl : t' = t'' := Option.some.inj ht''
      exact hkept
    · rw [List.mem_cons, h.contents x, htree]
      exact or_assoc.symm

namespace Midway

variable {l₂ l₁ : List Ptr} (h : Midway order p s l₂ l₁ o)

include h

theorem fresh {n : Nat} (hn : .node n ∈ l₂) : Ptr.node n ≠ .node s.count := fun heq =>
  h.lists.fresh (heq ▸ List.mem_cons_of_mem _ (List.mem_append_left _ hn))

theorem front_append (list : Ptr) {n : Nat} (hn : .node n ∈ l₂) :
    (s.append list o).data (.node n) ∈ treeObjs (s.append list o) := by
  rw [data_append list o (h.fresh hn)]
  exact h.front n hn

theorem overlaid_append (list : Ptr) : (s.append list o).data (.pd 0) = overlay p := by
  rw [data_append list o fun heq => by cases heq]
  exact h.overlaid

/-- The memsection goes in front of the head of `freevms_pd.memsections`. -/
theorem append_kernel :
    TInv order p (s.append (.pd 0) o) (l₂ ++ .node s.count :: .pd 0 :: l₁) := by
  have hmem : ∀ x, x ∈ l₂ ++ Ptr.node s.count :: .pd 0 :: l₁ ↔
      x = .node s.count ∨ x ∈ l₂ ++ .pd 0 :: l₁ := by
    intro x
    simp only [List.mem_append, List.mem_cons]
    tauto
  refine ⟨h.lists.append_pd h.last o, h.pages, h.kept, fun x => ?_, h.real, ?_⟩
  · have hstored : x = o → x ∈ treeObjs s := fun heq => heq ▸ h.stored
    rw [listed_append h.lists (.pd 0) o hmem]
    show x ∈ o :: s.created ↔ x ∈ treeObjs s ∨ _
    rw [h.contents x]
    tauto
  · refine .booted (l₂ ++ [.node s.count]) l₁ h.initialized (by rw [List.append_assoc]; rfl) ?_ ?_
      (fun n hn => ?_) h.table (h.overlaid_append _)
    · rw [lastOf_append]
      exact s.links.append_prev_self _ _
    · have hshort := h.short
      show _ ≤ s.count + 1 + 1
      simp only [List.length_append, List.length_cons] at hshort ⊢
      omega
    · rcases List.mem_append.mp hn with hn | hn
      · exact h.front_append (.pd 0) hn
      · have hself : (s.append (.pd 0) o).data (.node s.count) = o := Function.update_self _ _ _
        rw [List.mem_singleton.mp hn, hself]
        exact h.stored

/-- The list of another domain is not walked through. -/
theorem append_other (k : Nat) : TInv order p (s.append (.pd (k + 1)) o) (l₂ ++ .pd 0 :: l₁) := by
  refine ⟨h.lists.append_other k o, h.pages, h.kept, fun x => ?_, h.real, ?_⟩
  · rw [listed_append_other h.lists (.pd (k + 1)) o]
    exact h.contents x
  · refine .booted l₂ l₁ h.initialized rfl ?_ (Nat.le_succ_of_le h.short)
      (fun n hn => h.front_append _ hn) h.table (h.overlaid_append _)
    have hne : Ptr.pd 0 ≠ .pd (k + 1) := fun heq => by cases heq
    have hne' : Ptr.pd 0 ≠ .node s.count := fun heq => by cases heq
    rw [← h.last]
    exact s.links.append_prev_of_ne hne hne'

end Midway

/-- A memsection after `sys$pd_init` goes into the tree and to the list of its domain. -/
theorem TInv.append_pd (h : TInv order p s v) (ho : Fresh p s o) {t t' : BTreeS} {pool' : PagePool}
    (hinit : s.initialized = true) (ht : s.objtable = some t) (hkept : Kept order (minKey order) t')
    (hobjs : ∀ x, x ∈ objs t'.root ↔ x = o ∨ x ∈ objs t.root) (hpool : ∀ i, pool'.grant i ≠ none)
    (k : Nat) :
    ∃ v', TInv order p (({ s with objtable := some t', pool := pool' } : Table).append (.pd k) o) v' := by
  obtain ⟨l₂, l₁, hmid⟩ := h.midway ho hinit ht hkept hobjs hpool
  cases k with
  | zero => exact ⟨_, hmid.append_kernel⟩
  | succ k => exact ⟨_, hmid.append_other k⟩

/-- `sys$objtable_init`. -/
theorem TInv.objtable_init (h : TInv order p s v) (hinit : s.initialized = false) :
    TInv order p { s with objtable := some emptyTree } v := by
  cases h.phase with
  | booted l₂ l₁ hyes => rw [hinit] at hyes; cases hyes
  | booting _ hhead hlen htree =>
    refine ⟨⟨h.lists.hangs, h.lists.cells, h.lists.others⟩, h.pages, fun t ht => ?_, fun x => ?_,
      h.real, .booting hinit hhead hlen rfl⟩
    · obtain rfl : emptyTree = t := Option.some.inj ht
      exact kept_empty order (minKey order)
    · rw [h.contents x, htree]
      exact Iff.rfl

/-- The two rings of `sys$pd_init` become one, with `list` right behind `head`. -/
theorem moveLoop_rings {list head : Ptr} {L : Links Ptr} {fuel : Nat} (hold : Hangs L head v)
    (hnew : Hangs L list []) (hout : list ∉ head :: v) (hfuel : v.length < fuel) :
    ∃ L', moveLoop list (L.next head) fuel (L.next head) L = some L' ∧ Hangs L' head (list :: v) ∧
      L'.prev list = head ∧ ∀ g, g ∉ list :: (v ++ [head]) → L'.prev g = L.prev g := by
  obtain ⟨r, hr, hpath, hfirst⟩ := hold.from_first
  have hperm := List.perm_append_singleton head v
  have hlast : lastOf (L.next head) r = head := by
    show lastOf list (L.next head :: r) = _
    rw [hr, lastOf_append]
    rfl
  have hnodup : (list :: ([] ++ L.next head :: r)).Nodup := by
    rw [List.nil_append, hr]
    exact List.nodup_cons.mpr ⟨fun hmem => hout (hperm.mem_iff.mp hmem),
      hperm.nodup_iff.mpr hold.nodup⟩
  have hlen : r.length < fuel := by
    have := congrArg List.length hr
    simp only [List.length_cons, List.length_append, List.length_nil] at this
    omega
  obtain ⟨L', hloop, hring, hprev, hothers⟩ :=
    moveLoop_spec r (L.next head) [] L fuel hnew hpath hfirst hnodup hlen
  rw [List.nil_append, hr] at hring hothers
  rw [hlast, List.nil_append, hr, List.dropLast_concat] at hprev
  refine ⟨L', hloop, hring.from_last hprev, ?_, hothers⟩
  rw [hring.last, lastOf_append]
  rfl

/-- The list of another domain after the move. -/
theorem Lists.others_moved {L' : Links Ptr} (h : Lists s v)
    (hothers : ∀ k, Ptr.pd (k + 1) ∉ Ptr.pd 0 :: (v ++ [Ptr.internal]) →
      L'.prev (.pd (k + 1)) = s.links.prev (.pd (k + 1))) (k : Nat) :
    L'.prev (.pd (k + 1)) = .pd (k + 1) ∨
      ∃ n < s.count, L'.prev (.pd (k + 1)) = .node n ∧ .node n ∉ Ptr.pd 0 :: v := by
  have hnot : Ptr.pd (k + 1) ∉ Ptr.pd 0 :: (v ++ [Ptr.internal]) := fun hmem => by
    rcases List.mem_cons.mp hmem with heq | hmem
    · cases heq
    · exact h.pd_not_mem k ((List.perm_append_singleton _ v).mem_iff.mp hmem)
  rw [hothers k hnot]
  rcases h.others k with heq | ⟨n, hn, heq, hnv⟩
  · exact Or.inl heq
  · refine Or.inr ⟨n, hn, heq, fun hmem => ?_⟩
    rcases List.mem_cons.mp hmem with hno | hmem
    · cases hno
    · exact hnv hmem

/-- `sys$pd_init`: the head of `freevms_pd.memsections` comes into the ring, right after that of
    `internal_memsections`. -/
theorem TInv.pd_init (h : TInv order p s v) (hinit : s.initialized = false)
    (htable : s.objtable ≠ none) :
    ∃ s', tableStep order p .pdInit s = .ok s' ∧ TInv order p s' (.pd 0 :: v) := by
  cases h.phase with
  | booted l₂ l₁ hyes => rw [hinit] at hyes; cases hyes
  | booting _ hhead hlen htree =>
    have hout : Ptr.pd 0 ∉ Ptr.internal :: v := fun hmem => by
      rcases List.mem_cons.mp hmem with heq | hmem
      · cases heq
      · exact hhead hmem
    generalize hL : (⟨Function.update s.links.next (.pd 0) (.pd 0),
      Function.update s.links.prev (.pd 0) (.pd 0)⟩ : Links Ptr) = L
    have hprevL : ∀ g, g ≠ .pd 0 → L.prev g = s.links.prev g := fun g hg => by
      rw [← hL]
      exact Function.update_of_ne hg _ _
    have hold : Hangs L .internal v := by
      refine ⟨h.lists.hangs.path.congr fun x hx => ?_, h.lists.hangs.nodup, ?_⟩
      · have hne : x ≠ .pd 0 := fun heq => hout (heq ▸ hx)
        rw [← hL]
        exact Function.update_of_ne hne _ _
      · rw [hprevL _ fun heq => by cases heq]
        exact h.lists.hangs.last
    have hnew : Hangs L (.pd 0) [] := by
      have hnext : L.next (.pd 0) = .pd 0 := by
        rw [← hL]
        exact Function.update_self (Ptr.pd 0) _ s.links.next
      have hprev : L.prev (.pd 0) = .pd 0 := by
        rw [← hL]
        exact Function.update_self (Ptr.pd 0) _ s.links.prev
      exact ⟨hnext, List.nodup_singleton _, hprev⟩
    obtain ⟨L', hloop, hring, hprev, hothers⟩ :=
      moveLoop_rings hold hnew hout (Nat.lt_succ_of_le hlen)
    have hstep : tableStep order p .pdInit s = .ok { s with
        links := L'
        data := Function.update s.data (.pd 0) (overlay p)
        initialized := true } := by
      rw [← hL] at hloop
      simp only [tableStep, hloop]
    have hdata : ∀ n, Function.update s.data (.pd 0) (overlay p) (.node n) = s.data (.node n) :=
      fun n => Function.update_of_ne (fun heq => by cases heq) _ _
    have hmoved : ∀ k, Ptr.pd (k + 1) ∉ Ptr.pd 0 :: (v ++ [Ptr.internal]) →
        L'.prev (.pd (k + 1)) = s.links.prev (.pd (k + 1)) := by
      intro k hk
      rw [hothers _ hk]
      exact hprevL _ fun heq => by cases heq
    refine ⟨_, hstep, ⟨hring, fun x hx => ?_, h.lists.others_moved hmoved⟩, h.pages, h.kept,
      fun x => ?_, h.real, ?_⟩
    · rcases List.mem_cons.mp hx with rfl | hx
      · exact Or.inl rfl
      · exact h.lists.cells x hx
    · rw [h.contents x]
      have hsame : Listed { s with
          links := L'
          data := Function.update s.data (.pd 0) (overlay p)
          initialized := true } (.pd 0 :: v) x ↔ Listed s v x := by
        simp only [Listed, hdata, List.mem_cons, reduceCtorEq, false_or]
      rw [hsame]
      exact Iff.rfl
    · exact .booted [] v rfl rfl hprev (Nat.succ_le_succ hlen)
        (fun n hn => absurd hn List.not_mem_nil) (Option.ne_none_iff_exists'.mp htable)
        (Function.update_self (.pd 0) _ s.data)

/-- Each call keeps the invariant, whatever the phase. -/
theorem TInv.step (hv : ValidOrder order) (h : ∃ v, TInv order p s v) {c : TableCall}
    (hc : c.Legal order p s) :
    Ends (fun _ => False) (fun s' => ∃ v', TInv order p s' v') (tableStep order p c s) := by
  obtain ⟨v, h⟩ := h
  cases c with
  | pool o => exact .ok ⟨_, h.append_internal hc⟩
  | objtableInit => exact .ok ⟨_, h.objtable_init hc⟩
  | pdInit =>
    obtain ⟨s', hs', hinv⟩ := h.pd_init hc.1 hc.2
    rw [hs']
    exact .ok ⟨_, hinv⟩
  | create k o =>
    obtain ⟨ho, hinner⟩ := hc
    cases hinit : s.initialized with
    | false =>
      have hno : ¬ s.initialized = true := by simp [hinit]
      have hins : objtableInsert order s o = some (0, s.objtable, s.pool) := if_neg hno
      simp only [tableStep, hins, ↓reduceIte]
      rw [if_neg hno]
      exact .ok ⟨_, h.append_internal ho⟩
    | true =>
      obtain ⟨t, ht⟩ : ∃ t, s.objtable = some t := by
        cases h.phase with
        | booting hno => rw [hinit] at hno; cases hno
        | booted _ _ _ _ _ _ _ htable => exact htable
      obtain ⟨t', pool', hins, hkept, hobjs, hpool⟩ := h.insert hv ho hinit ht (hinner t ht)
      obtain ⟨v', hinv⟩ := h.append_pd ho hinit ht hkept hobjs hpool k
      simp only [tableStep, hins, ↓reduceIte]
      rw [if_pos hinit]
      exact .ok ⟨v', hinv⟩

/-! ### The search -/

theorem firstMatch_some {data : Ptr → Memsection} {a : Nat} (h : firstMatch data a v = some o) :
    ∃ x ∈ v, data x = o ∧ o.Contains a := by
  have hmatch : btObjMatch o a = true := List.find?_some (p := fun o => btObjMatch o a) h
  obtain ⟨x, hx, rfl⟩ := List.mem_map.mp (List.mem_of_find?_eq_some h)
  exact ⟨x, hx, rfl, (btObjMatch_iff _ _).mp hmatch⟩

theorem firstMatch_none {data : Ptr → Memsection} {a : Nat} (h : firstMatch data a v = none) :
    ∀ x ∈ v, ¬ (data x).Contains a := by
  intro x hx hcontains
  exact List.find?_eq_none.mp h _ (List.mem_map_of_mem hx) ((btObjMatch_iff _ _).mpr hcontains)

theorem lookup_of_tree (h : TInv order p s v) {a : Nat} (hin : ∃ o ∈ treeObjs s, o.Contains a) :
    ∃ o ∈ treeObjs s, o.Contains a ∧ objtableLookup s a = some (some o) := by
  obtain ⟨o, ho, hcontains⟩ := hin
  refine ⟨o, ho, hcontains, ?_⟩
  cases ht : s.objtable with
  | none =>
    rw [treeObjs, ht] at ho
    exact absurd ho List.not_mem_nil
  | some t =>
    obtain ⟨-, -, -, -, hfound, -⟩ := (h.kept t ht).search a
    rw [treeObjs, ht] at ho
    have hsearch : objBTSearch (some t) a = some (.ok, some o) := (hfound o).mpr ⟨ho, hcontains⟩
    simp only [objtableLookup, ht, hsearch]

theorem lookup_of_list (h : TInv order p s v) {a : Nat} (hno : ¬ ∃ o ∈ treeObjs s, o.Contains a) :
    objtableLookup s a = some (firstMatch s.data a v) := by
  have hlen : v.length ≤ s.count + 1 := by
    cases h.phase with
    | booting _ _ hlen => exact Nat.le_succ_of_le hlen
    | booted _ _ _ _ _ hlen => exact hlen
  have hwalk : walk s.links.next s.data (s.links.next .internal) a (s.count + 3)
      (s.links.next .internal) = some (firstMatch s.data a v) :=
    walk_ring h.lists.hangs (by omega)
  cases ht : s.objtable with
  | none => simp only [objtableLookup, ht, objBTSearch, hwalk]
  | some t =>
    obtain ⟨status, obj, hsearch, -, -, hnot⟩ := (h.kept t ht).search a
    rw [treeObjs, ht] at hno
    obtain rfl := hnot.mpr hno
    simp only [objtableLookup, ht, hsearch, hwalk]

/-- Where the lookup is right: everywhere but at the address after the head of
    `freevms_pd.memsections`, and there too when the tree knows better. -/
theorem TInv.lookup_correct_iff (h : TInv order p s v) (a : Nat) :
    LookupCorrect s a ↔
      ¬ (s.initialized = true ∧ a = p + 16 ∧ ∀ o ∈ treeObjs s, ¬ o.Contains a) := by
  by_cases htree : ∃ o ∈ treeObjs s, o.Contains a
  · obtain ⟨o, ho, hcontains, hlookup⟩ := lookup_of_tree h htree
    refine iff_of_true ?_ fun hbad => hbad.2.2 o ho hcontains
    simp only [LookupCorrect, hlookup]
    exact ⟨(h.contents o).mpr (Or.inl ho), hcontains⟩
  have hlookup := lookup_of_list h htree
  have hnone : ∀ o ∈ treeObjs s, ¬ o.Contains a := fun o ho hc => htree ⟨o, ho, hc⟩
  by_cases hbad : s.initialized = true ∧ a = p + 16
  · refine iff_of_false (fun hright => ?_) fun hgood => hgood ⟨hbad.1, hbad.2, hnone⟩
    have hfirst : firstMatch s.data a v = some (overlay p) := by
      cases h.phase with
      | booting hno => rw [hbad.1] at hno; cases hno
      | booted l₂ l₁ _ hcells _ _ hfront _ hover =>
        have hl₂ : firstMatch s.data a l₂ = none := by
          cases hm : firstMatch s.data a l₂ with
          | none => rfl
          | some o =>
            obtain ⟨x, hx, rfl, hcontains⟩ := firstMatch_some hm
            rcases h.lists.cells x (hcells ▸ List.mem_append_left _ hx) with rfl | ⟨n, -, rfl⟩
            · have hnodup := (List.nodup_cons.mp h.lists.hangs.nodup).2
              rw [hcells] at hnodup
              exact absurd rfl ((List.nodup_append.mp hnodup).2.2 _ hx _ List.mem_cons_self)
            · exact absurd hcontains (hnone _ (hfront n hx))
        have hmatch : btObjMatch (overlay p) a = true := by
          rw [btObjMatch_iff, hbad.2]
          exact ⟨Nat.le_refl _, Nat.le_refl _⟩
        rw [firstMatch] at hl₂
        rw [hcells, firstMatch, List.map_append, List.find?_append, hl₂, List.map_cons, hover,
          List.find?_cons, hmatch]
        rfl
    simp only [LookupCorrect, hlookup, hfirst] at hright
    exact (h.real _ hright.1).2 rfl
  · refine iff_of_true ?_ fun hno => hbad ⟨hno.1, hno.2.1⟩
    simp only [LookupCorrect, hlookup]
    cases hm : firstMatch s.data a v with
    | none =>
      rintro ⟨o, ho, hcontains⟩
      rcases (h.contents o).mp ho with hin | ⟨n, hn, rfl⟩
      · exact hnone o hin hcontains
      · exact firstMatch_none hm _ hn hcontains
    | some o =>
      obtain ⟨x, hx, rfl, hcontains⟩ := firstMatch_some hm
      refine ⟨?_, hcontains⟩
      rcases h.lists.cells x hx with rfl | ⟨n, -, rfl⟩
      · cases h.phase with
        | booting _ hhead => exact absurd hx hhead
        | booted _ _ hinit _ _ _ _ _ hover =>
          rw [hover] at hcontains
          exact absurd ⟨hinit, Nat.le_antisymm hcontains.2 hcontains.1⟩ hbad
      · exact (h.contents _).mpr (Or.inr ⟨n, hx, rfl⟩)

end

/-- **Lookups across boot.**  In every state reached by creations before, around and after
    `sys$pd_init`, the lookup of an address returns the memsection that contains it or `NULL`,
    unless `vms$pd_initialized` is set, the address is that of `freevms_pd.sessions`, and no
    memsection of the tree contains it. -/
theorem objtable_lookup_correct_iff {order : Nat} (hv : ValidOrder order) (p : Nat) (pool : PagePool)
    (hpool : ∀ i, pool.grant i ≠ none) (calls : List TableCall)
    (hlegal : Along (tableStep order p) (fun c s => c.Legal order p s) calls (Table.init pool)) :
    Ends (fun _ => False)
      (fun s => ∀ a, LookupCorrect s a ↔
        ¬ (s.initialized = true ∧ a = p + 16 ∧ ∀ o ∈ treeObjs s, ¬ o.Contains a))
      (runs (tableStep order p) calls (Table.init pool)) := by
  have hrun := runs_induction (I := fun s => ∃ v, TInv order p s v) (A := fun _ => False)
    (fun c s h hc => TInv.step hv h hc) calls (Table.init pool) ⟨[], tinv_init hpool⟩ hlegal
  refine hrun.mono fun s h a => ?_
  obtain ⟨v, h⟩ := h
  exact h.lookup_correct_iff a

instance (x y : Memsection) : Decidable (Meets x y) :=
  decidable_of_iff (max x.base y.base ≤ min x.end_ y.end_)
    ⟨fun h => ⟨max x.base y.base, by omega, by omega⟩, fun ⟨a, h₁, h₂⟩ => by omega⟩

instance (p : Nat) (s : Table) (o : Memsection) : Decidable (Fresh p s o) :=
  decidable_of_iff (o.base ≤ o.end_ ∧ (∀ x ∈ s.created, ¬ Meets o x) ∧ o.addr ≠ p + 16)
    ⟨fun ⟨h₁, h₂, h₃⟩ => ⟨h₁, h₂, h₃⟩, fun h => ⟨h.proper, h.disjoint, h.addr⟩⟩

instance (order p : Nat) (s : Table) : DecidablePred (TableCall.Legal order p s)
  | .create _ o => inferInstanceAs (Decidable
      (Fresh p s o ∧ ∀ t ∈ s.objtable, innerSplit order o t.root = false))
  | .pool o => inferInstanceAs (Decidable (Fresh p s o))
  | .objtableInit => inferInstanceAs (Decidable (s.initialized = false))
  | .pdInit => decidable_of_iff (s.initialized = false ∧ s.objtable.isSome = true)
      (and_congr_right fun _ => Option.isSome_iff_ne_none)

/-- A boot: the kernel and a slab pool before `sys$pd_init`, then a memsection of the kernel, a slab
    pool and a memsection of a user domain. -/
def acrossBoot : List TableCall :=
  [.create 0 ⟨0x40000010, 0x100000, 0x1fffff⟩, .pool ⟨0x40000100, 0x40000000, 0x40000fff⟩,
    .objtableInit, .pdInit, .create 0 ⟨0x40000200, 0x300000, 0x3fffff⟩,
    .pool ⟨0x40000300, 0x40001000, 0x40001fff⟩, .create 1 ⟨0x40000400, 0x500000, 0x5fffff⟩]

theorem acrossBoot_lookup_correct :
    Along (tableStep 255 0x180000) (fun c s => c.Legal 255 0x180000 s) acrossBoot
      (Table.init endlessPool) ∧
    Ends (fun _ => False)
      (fun s => ∀ a, LookupCorrect s a ↔
        ¬ (s.initialized = true ∧ a = 0x180000 + 16 ∧ ∀ o ∈ treeObjs s, ¬ o.Contains a))
      (runs (tableStep 255 0x180000) acrossBoot (Table.init endlessPool)) := by
  have hlegal : Along (tableStep 255 0x180000) (fun c s => c.Legal 255 0x180000 s) acrossBoot
      (Table.init endlessPool) :=
    .cons rfl (by decide +kernel) (.cons rfl (by decide +kernel) (.cons rfl (by decide +kernel)
      (.cons rfl (by decide +kernel) (.cons rfl (by decide +kernel) (.cons rfl (by decide +kernel)
        (.cons rfl (by decide +kernel) trivial))))))
  exact ⟨hlegal, objtable_lookup_correct_iff deployed_order _ endlessPool endlessPool_grants
    acrossBoot hlegal⟩

/-- After `sys$pd_init`, the address of `freevms_pd.sessions` is found in no memsection: the lookup
    returns the list head itself. -/
theorem session_head_returned :
    ¬ ∀ calls, Along (tableStep 255 0x180000) (fun c s => c.Legal 255 0x180000 s) calls
        (Table.init endlessPool) →
      Ends (fun _ => False) (fun s => ∀ a, LookupCorrect s a)
        (runs (tableStep 255 0x180000) calls (Table.init endlessPool)) := by
  intro h
  have hlegal : Along (tableStep 255 0x180000) (fun c s => c.Legal 255 0x180000 s)
      [.pool ⟨0x40000100, 0x40000000, 0x40000fff⟩, .objtableInit, .pdInit]
      (Table.init endlessPool) :=
    .cons rfl (by decide +kernel) (.cons rfl (by decide +kernel) (.cons rfl (by decide +kernel) trivial))
  obtain ⟨s, hrun, hlookup, hnew⟩ : ∃ s, runs (tableStep 255 0x180000)
      [.pool ⟨0x40000100, 0x40000000, 0x40000fff⟩, .objtableInit, .pdInit] (Table.init endlessPool) =
        .ok s ∧ objtableLookup s 0x180010 = some (some (overlay 0x180000)) ∧
      overlay 0x180000 ∉ s.created :=
    ⟨_, rfl, by decide +kernel, by decide +kernel⟩
  have hend := h _ hlegal
  rw [hrun] at hend
  cases hend with
  | ok hright =>
    have hwrong := hright 0x180010
    simp only [LookupCorrect, hlookup] at hwrong
    exact hnew hwrong.1

end FreeVMS.Kernel
