import FreeVMS.Kernel.Exclusion
import FreeVMS.Kernel.LookupSpec

/-!
# The object table over the allocators

The allocators, the slab caches and the creation of memsections together with the lists that
`sys$objtable_lookup` walks through.  A call puts the memsections of the pools that it makes on
`internal_memsections` and, when it creates a memsection, that one on a list at the end.

What the lookup needs of its memsections, that they do not overlap, the allocators see to.
-/

namespace FreeVMS.Kernel.Sections

open Trace Cover Run Alloc BTree IntervalList LinkRing

/-- The kernel with the lists of its memsections. -/
structure Kern where
  sys : Sys
  table : Table

/-- A call of the kernel, or `sys$objtable_init`. -/
inductive BootCall where
  | kernel (c : KernelCall)
  | objtableInit

section Code

variable (bits order p : Nat) (nodes : Nat → Nat)

/-- The memsection of a pool, in the slab at `node`. -/
def poolSection (node : Nat) (q : Pool) : Memsection := ⟨node, q.virt, q.virt + (2 ^ bits - 1)⟩

/-- `sys$memsection_create_cache` puts the memsection of a new pool on `internal_memsections`. -/
def addPools : List Pool → Table → Table
  | [], T => T
  | q :: qs, T => addPools qs (T.append .internal (poolSection bits (nodes T.count) q))

/-- The list that `sys$pd_create_memsection` has chosen. -/
def listOf : Option Nat → Ptr
  | none => .internal
  | some k => .pd k

/-- The lists and the object table after a call that leads from `s` to `s'`. -/
def relist (s s' : Sys) (T : Table) : Table :=
  let T := addPools bits nodes (s'.pools.drop s.pools.length) T
  let T := if s'.objs.initialized then { T with objtable := some s'.objs.tree } else T
  (s'.objs.sections.drop s.objs.sections.length).foldl (fun T e => T.append (listOf e.1) e.2) T

/-- One call, with `freevms_pd.memsections` at the address `p`. -/
def bootStep (c : BootCall) (w : Kern) : Except Fault Kern :=
  match c with
  | .objtableInit =>
      .ok ⟨{ w.sys with objs := { w.sys.objs with tree := emptyTree } },
        { w.table with objtable := some emptyTree }⟩
  | .kernel .pdInit => do
      let s ← kernelStep bits order .pdInit w.sys
      match tableStep order p .pdInit w.table with
      | .ok T => .ok ⟨s, T⟩
      | .error _ => .error .diverge
  | .kernel c => do
      let s ← kernelStep bits order c w.sys
      .ok ⟨s, relist bits nodes w.sys s w.table⟩

/-- Nothing has been created yet. -/
def Kern.init : Kern := ⟨Sys.init, Table.init endlessPool⟩

/-- What the callers see to, in the order of `sys_main.c`: memsections where nothing lies, none in a slab
    over `freevms_pd`, physical memory for those at a fixed address, and not so many that an inner
    page of the tree is full. -/
def BootCall.Legal (w : Kern) : BootCall → Prop
  | objtableInit => w.sys.objs.initialized = false
  | kernel c => c.Legal bits w.sys ∧ c.Apart bits w.sys ∧ c.Fed bits order w.sys ∧
      match c with
      | .sys _ => True
      | .create a slabs => slabs.ms ≠ p + 16 ∧
          w.sys.objs.sections.length < order * (minKey order + 1) ∧
          (a.BacksFixed → (pdCreateMemsection bits order a slabs w.sys).result ≠ .ok none)
      | .pdInit => w.sys.objs.initialized = false ∧ w.table.objtable ≠ none

/-- `sys$objtable_lookup` of `a` returns the memsection or the pool that contains it, and `NULL` when
    there is none. -/
structure Finds (w : Kern) (a : Nat) : Prop where
  memsection : ∀ e ∈ w.sys.objs.sections, e.2.Contains a → objtableLookup w.table a = some (some e.2)
  pool : ∀ q ∈ w.sys.pools, q.virt ≤ a → a < q.virt + 2 ^ bits →
    ∃ n, objtableLookup w.table a = some (some (poolSection bits (nodes n) q))
  nothing : (∀ e ∈ w.sys.objs.sections, ¬ e.2.Contains a) →
    (∀ q ∈ w.sys.pools, ¬ (q.virt ≤ a ∧ a < q.virt + 2 ^ bits)) →
    objtableLookup w.table a = some none

end Code

/-! ### The invariant -/

/-- The lists have the memsections and the pools, and the tree has the memsections that were created
    after `sys$pd_init`. -/
structure Mirrored (bits order p : Nat) (nodes : Nat → Nat) (w : Kern) : Prop where
  counted : Counted bits order w.sys
  kept : Kept order (minKey order) w.sys.objs.tree
  stored : (objs w.sys.objs.tree.root).Perm ((w.sys.objs.sections.filter (·.1.isSome)).map (·.2))
  early : w.sys.objs.initialized = false → ∀ e ∈ w.sys.objs.sections, e.1 = none
  rings : ∃ v, TInv order p w.table v
  initialized : w.table.initialized = w.sys.objs.initialized
  tree : ∀ t, w.table.objtable = some t → t = w.sys.objs.tree
  sections : ∀ e ∈ w.sys.objs.sections, e.2 ∈ w.table.created
  pools : ∀ q ∈ w.sys.pools, ∃ n, poolSection bits (nodes n) q ∈ w.table.created
  only : ∀ o ∈ w.table.created, (∃ e ∈ w.sys.objs.sections, e.2 = o) ∨
    ∃ q ∈ w.sys.pools, ∃ n, o = poolSection bits (nodes n) q

section

variable {bits order p : Nat} {nodes : Nat → Nat} {s s' : Sys} {T T' : Table} {w : Kern}

/-- Two pools do not share an address. -/
theorem Counted.pools_apart (h : Counted bits order s) (hpos : 0 < 2 ^ bits) :
    s.pools.Pairwise fun q r => ∀ m n, ¬ Meets (poolSection bits m q) (poolSection bits n r) := by
  have hle : ∀ x, weight (fun q : Pool => span (q.page .vm) (2 ^ bits) x) s.pools ≤ 1 := by
    intro x
    have hx := h.once x
    have hpool : weight (fun q : Pool => span (q.page .vm) (2 ^ bits) x) s.pools =
        poolCover bits .vm s.pools x := rfl
    rw [charge, account] at hx
    omega
  refine (pairwise_of_weight hle).imp fun {q r} hone m n => ?_
  rintro ⟨x, ⟨hqx, hqx'⟩, hrx, hrx'⟩
  have hq : span (q.page .vm) (2 ^ bits) x = 1 := span_eq_one.mpr (by
    have hlo : q.virt ≤ x := hqx
    have hhi : x ≤ q.virt + (2 ^ bits - 1) := hqx'
    show q.virt ≤ x ∧ x < q.virt + 2 ^ bits
    omega)
  have hr : span (r.page .vm) (2 ^ bits) x = 1 := span_eq_one.mpr (by
    have hlo : r.virt ≤ x := hrx
    have hhi : x ≤ r.virt + (2 ^ bits - 1) := hrx'
    show r.virt ≤ x ∧ x < r.virt + 2 ^ bits
    omega)
  have := hone x
  omega

/-- A memsection and a pool do not share an address. -/
theorem Counted.section_pool (h : Counted bits order s) (hpos : 0 < 2 ^ bits)
    {e : Option Nat × Memsection} (he : e ∈ s.objs.sections) {q : Pool} (hq : q ∈ s.pools) (n : Nat) :
    ¬ Meets e.2 (poolSection bits n q) := by
  rintro ⟨x, hex, hqx, hqx'⟩
  have hlo : q.virt ≤ x := hqx
  have hhi : x ≤ q.virt + (2 ^ bits - 1) := hqx'
  exact (h.exclusive.reserved e he x hex).2 q hq ⟨hlo, by omega⟩

theorem meets_symm {x y : Memsection} (h : Meets x y) : Meets y x := by
  obtain ⟨a, hx, hy⟩ := h
  exact ⟨a, hy, hx⟩

/-- What `addPools` does to the rest of the table. -/
structure PoolsAdded (bits : Nat) (nodes : Nat → Nat) (qs : List Pool) (T T' : Table) : Prop where
  initialized : T'.initialized = T.initialized
  objtable : T'.objtable = T.objtable
  before : ∀ o ∈ T.created, o ∈ T'.created
  added : ∀ q ∈ qs, ∃ n, poolSection bits (nodes n) q ∈ T'.created
  only : ∀ o ∈ T'.created, o ∈ T.created ∨ ∃ q ∈ qs, ∃ n, o = poolSection bits (nodes n) q

/-- The memsections of new pools are put on the ring one by one. -/
theorem addPools_spec (hnodes : ∀ n, nodes n ≠ p + 16) :
    ∀ (qs : List Pool) (T : Table), (∃ v, TInv order p T v) →
      (qs.Pairwise fun q r => ∀ m n, ¬ Meets (poolSection bits m q) (poolSection bits n r)) →
      (∀ q ∈ qs, ∀ n, ∀ o ∈ T.created, ¬ Meets (poolSection bits n q) o) →
      (∃ v, TInv order p (addPools bits nodes qs T) v) ∧
        PoolsAdded bits nodes qs T (addPools bits nodes qs T) := by
  intro qs
  induction qs with
  | nil =>
    intro T hT _ _
    exact ⟨hT, rfl, rfl, fun o ho => ho, fun q hq => absurd hq List.not_mem_nil, fun o ho => .inl ho⟩
  | cons q qs ih =>
    intro T hT hpairs hclear
    obtain ⟨v, hv⟩ := hT
    obtain ⟨hfirst, hrest⟩ := List.pairwise_cons.mp hpairs
    have hfresh : Fresh p T (poolSection bits (nodes T.count) q) :=
      ⟨Nat.le_add_right _ _, hclear q List.mem_cons_self _, hnodes _⟩
    have hclear' : ∀ r ∈ qs, ∀ n,
        ∀ o ∈ (T.append .internal (poolSection bits (nodes T.count) q)).created,
          ¬ Meets (poolSection bits n r) o := by
      intro r hr n o ho
      rcases List.mem_cons.mp ho with rfl | ho
      · exact fun hmeets => hfirst r hr _ n (meets_symm hmeets)
      · exact hclear r (List.mem_cons_of_mem _ hr) n o ho
    obtain ⟨hinv, hadded⟩ := ih _ ⟨_, hv.append_internal hfresh⟩ hrest hclear'
    refine ⟨hinv, hadded.initialized, hadded.objtable, fun o ho => ?_, fun r hr => ?_, fun o ho => ?_⟩
    · exact hadded.before o (List.mem_cons_of_mem _ ho)
    · rcases List.mem_cons.mp hr with rfl | hr
      · exact ⟨_, hadded.before _ List.mem_cons_self⟩
      · exact hadded.added r hr
    · rcases hadded.only o ho with ho | ⟨r, hr, hn⟩
      · rcases List.mem_cons.mp ho with rfl | ho
        · exact .inr ⟨q, List.mem_cons_self, _, rfl⟩
        · exact .inl ho
      · exact .inr ⟨r, List.mem_cons_of_mem _ hr, hn⟩

theorem drop_of_append {α : Type} {l l' t : List α} (h : l' = l ++ t) : l'.drop l.length = t := by
  rw [h, List.drop_left]

/-- The lists when no memsection was created. -/
theorem relist_same {t : List Pool} (hpools : s'.pools = s.pools ++ t)
    (hsections : s'.objs.sections = s.objs.sections) :
    relist bits nodes s s' T = if s'.objs.initialized then
      { addPools bits nodes t T with objtable := some s'.objs.tree } else addPools bits nodes t T := by
  rw [relist, drop_of_append hpools, hsections, List.drop_length]
  rfl

/-- The lists when one was. -/
theorem relist_one {t : List Pool} {list : Option Nat} {m : Memsection}
    (hpools : s'.pools = s.pools ++ t) (hsections : s'.objs.sections = s.objs.sections ++ [(list, m)]) :
    relist bits nodes s s' T = (if s'.objs.initialized then
      { addPools bits nodes t T with objtable := some s'.objs.tree }
        else addPools bits nodes t T).append (listOf list) m := by
  rw [relist, drop_of_append hpools, drop_of_append hsections]
  rfl

variable (hnodes : ∀ n, nodes n ≠ p + 16)

include hnodes

/-- The pools that a call has made are on the ring. -/
theorem Mirrored.pooled (h : Mirrored bits order p nodes w) (hC : Counted bits order s')
    {t : List Pool} (hpools : s'.pools = w.sys.pools ++ t)
    (hsections : ∀ e ∈ w.sys.objs.sections, e ∈ s'.objs.sections) :
    (∃ v, TInv order p (addPools bits nodes t w.table) v) ∧
      PoolsAdded bits nodes t w.table (addPools bits nodes t w.table) := by
  have hpos : 0 < 2 ^ bits := by positivity
  have hpairs := hC.pools_apart hpos
  rw [hpools] at hpairs
  obtain ⟨-, hnew, hcross⟩ := List.pairwise_append.mp hpairs
  refine addPools_spec hnodes t w.table h.rings hnew fun q hq n o ho => ?_
  have hq' : q ∈ s'.pools := hpools ▸ List.mem_append_right _ hq
  rcases h.only o ho with ⟨e, he, rfl⟩ | ⟨r, hr, k, rfl⟩
  · exact fun hmeets => hC.section_pool hpos (hsections e he) hq' n (meets_symm hmeets)
  · exact fun hmeets => hcross r hr q hq _ _ (meets_symm hmeets)

/-- A call that creates no memsection. -/
theorem Mirrored.unchanged (h : Mirrored bits order p nodes w) (hC : Counted bits order s')
    {t : List Pool} (hpools : s'.pools = w.sys.pools ++ t) (hobjs : s'.objs = w.sys.objs) :
    Mirrored bits order p nodes ⟨s', relist bits nodes w.sys s' w.table⟩ := by
  have hsections : s'.objs.sections = w.sys.objs.sections := by rw [hobjs]
  obtain ⟨⟨v, hv⟩, hadded⟩ := h.pooled hnodes hC hpools fun e he => hsections ▸ he
  have hrelist : relist bits nodes w.sys s' w.table = addPools bits nodes t w.table := by
    rw [relist_same hpools hsections]
    by_cases hinit : s'.objs.initialized = true
    · rw [if_pos hinit]
      have htable : (addPools bits nodes t w.table).objtable = some s'.objs.tree := by
        have hinit' : (addPools bits nodes t w.table).initialized = true := by
          rw [hadded.initialized, h.initialized, ← hobjs]
          exact hinit
        cases hv.phase with
        | booting hno => exact absurd (hinit'.symm.trans hno) (by decide)
        | booted _ _ _ _ _ _ _ htable =>
          obtain ⟨tree, htree⟩ := htable
          rw [htree, h.tree tree (hadded.objtable.symm.trans htree), hobjs]
      rw [← htable]
    · rw [if_neg hinit]
  rw [hrelist]
  refine ⟨hC, ?_, ?_, ?_, ⟨v, hv⟩, ?_, fun tree htree => ?_, fun e he => ?_, fun q hq => ?_,
    fun o ho => ?_⟩
  · show Kept order (minKey order) s'.objs.tree
    rw [hobjs]
    exact h.kept
  · show (objs s'.objs.tree.root).Perm ((s'.objs.sections.filter (·.1.isSome)).map (·.2))
    rw [hobjs]
    exact h.stored
  · show s'.objs.initialized = false → ∀ e ∈ s'.objs.sections, e.1 = none
    rw [hobjs]
    exact h.early
  · show (addPools bits nodes t w.table).initialized = s'.objs.initialized
    rw [hadded.initialized, h.initialized, hobjs]
  · show tree = s'.objs.tree
    rw [hobjs]
    exact h.tree tree (hadded.objtable.symm.trans htree)
  · exact hadded.before _ (h.sections e (hsections ▸ he))
  · have hq' : q ∈ w.sys.pools ++ t := hpools ▸ hq
    rcases List.mem_append.mp hq' with hq' | hq'
    · obtain ⟨n, hn⟩ := h.pools q hq'
      exact ⟨n, hadded.before _ hn⟩
    · exact hadded.added q hq'
  · show (∃ e ∈ s'.objs.sections, e.2 = o) ∨ ∃ q ∈ s'.pools, ∃ n, o = poolSection bits (nodes n) q
    rw [hsections, hpools]
    rcases hadded.only o ho with ho | ⟨q, hq, hn⟩
    · rcases h.only o ho with he | ⟨q, hq, hn⟩
      · exact .inl he
      · exact .inr ⟨q, List.mem_append_left _ hq, hn⟩
    · exact .inr ⟨q, List.mem_append_right _ hq, hn⟩

omit hnodes in
/-- The new memsection overlaps nothing that is on the lists. -/
theorem Mirrored.fresh (h : Mirrored bits order p nodes w) (hC : Counted bits order s') {a : Args}
    {slabs : Slabs} {m : Memsection} {t : List Pool} (hcr : Created bits order a slabs w.sys m s')
    (haddr : slabs.ms ≠ p + 16) (hpools : s'.pools = w.sys.pools ++ t)
    (hadded : PoolsAdded bits nodes t w.table T) : Fresh p T m := by
  have hpos : 0 < 2 ^ bits := by positivity
  have hself : ∀ q ∈ s'.pools, ∀ n, ¬ Meets m (poolSection bits n q) := by
    intro q hq n
    refine hC.section_pool (e := (if w.sys.objs.initialized then some a.self else none, m)) hpos ?_ hq n
    rw [hcr.sections]
    exact List.mem_append_right _ (List.mem_singleton_self _)
  refine ⟨hcr.le, fun o ho => ?_, by rw [hcr.addr]; exact haddr⟩
  rcases hadded.only o ho with ho | ⟨q, hq, n, rfl⟩
  · rcases h.only o ho with ⟨e, he, rfl⟩ | ⟨q, hq, n, rfl⟩
    · have hapart := hC.exclusive.apart
      rw [hcr.sections] at hapart
      have hcross := (List.pairwise_append.mp hapart).2.2 e he _ (List.mem_singleton_self _)
      exact fun hmeets => hcross (meets_symm hmeets)
    · exact hself q (hpools ▸ List.mem_append_left _ hq) _
  · exact hself q (hpools ▸ List.mem_append_right _ hq) _

omit hnodes in
/-- `objtable_insert` puts the new memsection into the tree. -/
theorem Mirrored.entered (ho : ValidOrder order) (h : Mirrored bits order p nodes w)
    (hC : Counted bits order s') {a : Args} {slabs : Slabs} {m : Memsection}
    (hcr : Created bits order a slabs w.sys m s')
    (hfew : w.sys.objs.sections.length < order * (minKey order + 1))
    (hinit : w.sys.objs.initialized = true) :
    Kept order (minKey order) s'.objs.tree ∧
      (objs s'.objs.tree.root).Perm (m :: objs w.sys.objs.tree.root) := by
  have hent := hcr.tree
  rw [Entered, if_pos hinit] at hent
  obtain ⟨out, hout, htree⟩ := hent
  have hstored : ∀ x ∈ objs w.sys.objs.tree.root, ∃ e ∈ w.sys.objs.sections, e.2 = x := by
    intro x hx
    obtain ⟨e, he, rfl⟩ := List.mem_map.mp (h.stored.mem_iff.mp hx)
    exact ⟨e, List.mem_of_mem_filter he, rfl⟩
  have hclear : Clear Memsection.base Memsection.end_ m (objs w.sys.objs.tree.root) := by
    intro x hx
    obtain ⟨e, he, rfl⟩ := hstored x hx
    have hapart := hC.exclusive.apart
    rw [hcr.sections] at hapart
    have hcross := (List.pairwise_append.mp hapart).2.2 e he _ (List.mem_singleton_self _)
    by_contra hno
    exact hcross (meets_symm ((meets_iff_not_apart hcr.le (h.counted.proper e he).1).mpr hno))
  have hlength : (objs w.sys.objs.tree.root).length ≤ w.sys.objs.sections.length := by
    rw [h.stored.length_eq, List.length_map]
    exact List.length_filter_le _ _
  have hmedian := h.kept.medianSplit_of_few (by have := ho.ge; omega) (by omega) m
  have hgrant : ∀ i, (pagesBut slabs.pad none).grant i ≠ none := fun i => by simp [pagesBut]
  obtain ⟨out', hout', hkept, hperm, -⟩ :=
    h.kept.insert_clear ho (Nat.le_refl _) hcr.le hclear hmedian .null hgrant
  obtain rfl : out = out' := Option.some.inj (hout.symm.trans hout')
  rw [htree]
  exact ⟨hkept, hperm⟩

omit hnodes in
/-- The lists have what has been created, once the new memsection is on one of them. -/
theorem Mirrored.listed (h : Mirrored bits order p nodes w) {a : Args} {slabs : Slabs}
    {m : Memsection} {t : List Pool} (hcr : Created bits order a slabs w.sys m s')
    (hpools : s'.pools = w.sys.pools ++ t) (hadded : PoolsAdded bits nodes t w.table T) :
    (∀ e ∈ s'.objs.sections, e.2 ∈ m :: T.created) ∧
      (∀ q ∈ s'.pools, ∃ n, poolSection bits (nodes n) q ∈ m :: T.created) ∧
      ∀ o ∈ m :: T.created, (∃ e ∈ s'.objs.sections, e.2 = o) ∨
        ∃ q ∈ s'.pools, ∃ n, o = poolSection bits (nodes n) q := by
  rw [hcr.sections, hpools]
  refine ⟨fun e he => ?_, fun q hq => ?_, fun o ho => ?_⟩
  · rcases List.mem_append.mp he with he | he
    · exact List.mem_cons_of_mem _ (hadded.before _ (h.sections e he))
    · obtain rfl := List.mem_singleton.mp he
      exact List.mem_cons_self
  · rcases List.mem_append.mp hq with hq | hq
    · obtain ⟨n, hn⟩ := h.pools q hq
      exact ⟨n, List.mem_cons_of_mem _ (hadded.before _ hn)⟩
    · obtain ⟨n, hn⟩ := hadded.added q hq
      exact ⟨n, List.mem_cons_of_mem _ hn⟩
  · rcases List.mem_cons.mp ho with rfl | ho
    · exact .inl ⟨_, List.mem_append_right _ (List.mem_singleton_self _), rfl⟩
    · rcases hadded.only o ho with ho | ⟨q, hq, hn⟩
      · rcases h.only o ho with ⟨e, he, heq⟩ | ⟨q, hq, hn⟩
        · exact .inl ⟨e, List.mem_append_left _ he, heq⟩
        · exact .inr ⟨q, List.mem_append_left _ hq, hn⟩
      · exact .inr ⟨q, List.mem_append_right _ hq, hn⟩

/-- A call that creates a memsection. -/
theorem Mirrored.created (ho : ValidOrder order) (h : Mirrored bits order p nodes w)
    (hC : Counted bits order s') {a : Args} {slabs : Slabs} {m : Memsection}
    (hcr : Created bits order a slabs w.sys m s') (haddr : slabs.ms ≠ p + 16)
    (hfew : w.sys.objs.sections.length < order * (minKey order + 1)) :
    Mirrored bits order p nodes ⟨s', relist bits nodes w.sys s' w.table⟩ := by
  obtain ⟨t, hpools⟩ := hcr.pools
  have hkeep : ∀ e ∈ w.sys.objs.sections, e ∈ s'.objs.sections := fun e he => by
    rw [hcr.sections]
    exact List.mem_append_left _ he
  obtain ⟨⟨v, hv⟩, hadded⟩ := h.pooled hnodes hC hpools hkeep
  have hfresh := h.fresh hC hcr haddr hpools hadded
  obtain ⟨hsections, hpooled, honly⟩ := h.listed hcr hpools hadded
  have hsame := hcr.initialized
  rw [relist_one hpools hcr.sections]
  cases hinit : w.sys.objs.initialized with
  | false =>
    have hinit' : s'.objs.initialized = false := hsame.trans hinit
    have htree : s'.objs.tree = w.sys.objs.tree := by
      have hent := hcr.tree
      rwa [Entered, if_neg (by rw [hinit]; decide)] at hent
    have hnew : s'.objs.sections = w.sys.objs.sections ++ [(none, m)] := by
      rw [hcr.sections, if_neg (by rw [hinit]; decide)]
    rw [if_neg (by rw [hinit']; decide), if_neg (by decide)]
    refine ⟨hC, ?_, ?_, fun _ e he => ?_, ⟨_, hv.append_internal hfresh⟩, ?_, fun tree ht => ?_,
      hsections, hpooled, honly⟩
    · show Kept order (minKey order) s'.objs.tree
      rw [htree]
      exact h.kept
    · show (objs s'.objs.tree.root).Perm ((s'.objs.sections.filter (·.1.isSome)).map (·.2))
      rw [htree, hnew, List.filter_append]
      simpa using h.stored
    · have he' : e ∈ w.sys.objs.sections ++ [(none, m)] := hnew ▸ he
      rcases List.mem_append.mp he' with he' | he'
      · exact h.early hinit e he'
      · rw [List.mem_singleton.mp he']
    · show (addPools bits nodes t w.table).initialized = s'.objs.initialized
      rw [hadded.initialized, h.initialized, hinit, hinit']
    · show tree = s'.objs.tree
      rw [htree]
      exact h.tree tree (hadded.objtable.symm.trans ht)
  | true =>
    have hinit' : s'.objs.initialized = true := hsame.trans hinit
    obtain ⟨hkept, hperm⟩ := h.entered ho hC hcr hfew hinit
    have hnew : s'.objs.sections = w.sys.objs.sections ++ [(some a.self, m)] := by
      rw [hcr.sections, if_pos hinit]
    have hring : (addPools bits nodes t w.table).initialized = true := by
      rw [hadded.initialized, h.initialized, hinit]
    have htable : (addPools bits nodes t w.table).objtable = some w.sys.objs.tree := by
      cases hv.phase with
      | booting hno => exact absurd (hring.symm.trans hno) (by decide)
      | booted _ _ _ _ _ _ _ htable =>
        obtain ⟨tree, htree⟩ := htable
        rw [htree, h.tree tree (hadded.objtable.symm.trans htree)]
    have hmem : ∀ x, x ∈ objs s'.objs.tree.root ↔ x = m ∨ x ∈ objs w.sys.objs.tree.root := fun x => by
      rw [hperm.mem_iff, List.mem_cons]
    rw [if_pos hinit', if_pos rfl]
    refine ⟨hC, hkept, ?_, fun hno => absurd (hinit'.symm.trans hno) (by decide),
      hv.append_pd hfresh hring htable hkept hmem hv.pages a.self, ?_, fun tree ht => ?_, hsections,
      hpooled, honly⟩
    · show (objs s'.objs.tree.root).Perm ((s'.objs.sections.filter (·.1.isSome)).map (·.2))
      rw [hnew, List.filter_append, List.map_append]
      refine hperm.trans ((List.Perm.cons m h.stored).trans ?_)
      simpa using (List.perm_append_singleton m _).symm
    · show (addPools bits nodes t w.table).initialized = s'.objs.initialized
      rw [hring, hinit']
    · exact (Option.some.inj ht).symm

omit hnodes in
/-- `sys$objtable_init`. -/
theorem Mirrored.objtable_init (h : Mirrored bits order p nodes w)
    (hinit : w.sys.objs.initialized = false) :
    Mirrored bits order p nodes ⟨{ w.sys with objs := { w.sys.objs with tree := emptyTree } },
      { w.table with objtable := some emptyTree }⟩ := by
  obtain ⟨v, hv⟩ := h.rings
  have hC := h.counted
  refine ⟨⟨⟨fun side => ?_, .inl rfl⟩, hC.proper, hC.once, hC.physical⟩, kept_empty _ _, ?_, h.early,
    ⟨v, hv.objtable_init (h.initialized.trans hinit)⟩, h.initialized,
    fun tree ht => (Option.some.inj ht).symm, h.sections, h.pools, h.only⟩
  · have := hC.kernel.inv side
    cases side <;> exact this
  · have hnone : w.sys.objs.sections.filter (·.1.isSome) = [] := by
      refine List.filter_eq_nil_iff.mpr fun e he => ?_
      rw [h.early hinit e he]
      decide
    show ([] : List Memsection).Perm ((w.sys.objs.sections.filter (·.1.isSome)).map (·.2))
    rw [hnone]
    exact List.Perm.nil

omit hnodes in
/-- `sys$pd_init`. -/
theorem Mirrored.pd_init (h : Mirrored bits order p nodes w) (hinit : w.sys.objs.initialized = false)
    (htable : w.table.objtable ≠ none) :
    ∃ T, tableStep order p .pdInit w.table = .ok T ∧ Mirrored bits order p nodes
      ⟨{ w.sys with objs := { w.sys.objs with initialized := true } }, T⟩ := by
  obtain ⟨v, hv⟩ := h.rings
  obtain ⟨T, hT, hinv⟩ := hv.pd_init (h.initialized.trans hinit) htable
  have hC := h.counted
  have hsame : T.initialized = true ∧ T.objtable = w.table.objtable ∧ T.created = w.table.created := by
    simp only [tableStep] at hT
    split at hT
    · cases hT
    · obtain rfl := Except.ok.inj hT
      exact ⟨rfl, rfl, rfl⟩
  obtain ⟨hon, hobj, hcreated⟩ := hsame
  refine ⟨T, hT, ⟨⟨fun side => ?_, hC.kernel.formed⟩, hC.proper, hC.once, hC.physical⟩, h.kept, h.stored,
    fun hno => absurd (show true = false from hno) (by decide), ⟨_, hinv⟩, hon,
    fun tree ht => h.tree tree (hobj.symm.trans ht), fun e he => ?_, fun q hq => ?_, fun o ho => h.only o (hcreated ▸ ho)⟩
  · have := hC.kernel.inv side
    cases side <;> exact this
  · rw [hcreated]
    exact h.sections e he
  · rw [hcreated]
    exact h.pools q hq

omit hnodes in
/-- A call of the allocators or the slab caches only adds pools. -/
theorem SysCall.pools_wp (hb : PageBits bits) (h12 : 12 ≤ bits) {c : SysCall} (hs : SInv bits s)
    (hlegal : c.Legal bits s) :
    Wp (sysJudge bits) (c.exec bits) s fun _ s' => ∃ t, s'.pools = s.pools ++ t := by
  cases c with
  | on side op =>
    refine (Op.exec_wp hb (linkedContract hb h12 side s) op (hlegal.1.proper hb hlegal.2.1)
      (fun _ => trivial) s (Beside.refl hs side) (hs side)).mono ?_
    rintro es s' ⟨hbeside, -, -⟩
    exact hbeside.pools
  | slabAlloc c =>
    refine wp_bind ((slabCacheAlloc_wp hb h12 1 c s hs).mono ?_)
    rintro r s' ⟨-, hdrawn⟩
    exact wp_pure hdrawn.pools
  | slabFree c => exact wp_bind (wp_update (wp_pure ⟨[], (List.append_nil _).symm⟩))

variable (hb : PageBits bits) (h12 : 12 ≤ bits) (ho : ValidOrder order)

include hb h12 ho

theorem Mirrored.exec_sys (h : Mirrored bits order p nodes w) {c : SysCall}
    (hlegal : (KernelCall.sys c).Legal bits w.sys) (hapart : (KernelCall.sys c).Apart bits w.sys) :
    Wp (sysJudge bits) ((KernelCall.sys c).exec bits order) w.sys fun _ s' =>
      Mirrored bits order p nodes ⟨s', relist bits nodes w.sys s' w.table⟩ := by
  have hcounted := h.counted.exec_wp hb h12 ho hlegal hapart
  have hlegal' : c.Legal bits w.sys := hlegal
  have hinv := h.counted.kernel.inv
  have hgrow : Wp (sysJudge bits) ((KernelCall.sys c).exec bits order) w.sys fun _ s' =>
      s'.objs = w.sys.objs ∧ ∃ t, s'.pools = w.sys.pools ++ t := by
    refine wp_bind (((SysCall.exec_wp hb h12 hinv hlegal').and
      (SysCall.pools_wp hb h12 hinv hlegal')).mono ?_)
    rintro es s' ⟨⟨-, hobjs, -⟩, hpools⟩
    exact wp_pure ⟨hobjs, hpools⟩
  refine (hcounted.and hgrow).mono ?_
  rintro _ s' ⟨hC, hobjs, t, hpools⟩
  exact h.unchanged hnodes hC hpools hobjs

theorem Mirrored.exec_create (h : Mirrored bits order p nodes w) {a : Args} {slabs : Slabs}
    (ha : a.Proper bits) (hu : a.Unused bits w.sys) (haddr : slabs.ms ≠ p + 16)
    (hfew : w.sys.objs.sections.length < order * (minKey order + 1))
    (hbacked : a.BacksFixed → (pdCreateMemsection bits order a slabs w.sys).result ≠ .ok none) :
    Wp (sysJudge bits) ((KernelCall.create a slabs).exec bits order) w.sys fun _ s' =>
      Mirrored bits order p nodes ⟨s', relist bits nodes w.sys s' w.table⟩ := by
  have hK := h.counted.kernel
  refine wp_bind ((pdCreateMemsection_settled hb h12 ho hK ha hu slabs).reached.mono ?_)
  rintro r s' ⟨⟨hform, hsome, hnone⟩, hresult, -⟩
  cases r with
  | some m =>
    have hcr := hsome m rfl
    exact wp_pure (h.created hnodes ho (h.counted.created hu hform hcr) hcr haddr hfew)
  | none =>
    -- what fails is not a memsection at a fixed address that has to be backed
    have hfailed := hnone rfl
    obtain ⟨t, hpools⟩ := hfailed.pools
    have hobjs : s'.objs = w.sys.objs := by
      have htree := hfailed.tree fun hback => hbacked hback hresult
      have hsections := hfailed.sections
      have hinit := hfailed.initialized
      cases hs : s'.objs with
      | mk tree initialized sections =>
        cases hw : w.sys.objs with
        | mk tree' initialized' sections' =>
          rw [hs, hw] at htree hsections hinit
          simp only at htree hsections hinit
          rw [htree, hsections, hinit]
    exact wp_pure (h.unchanged hnodes (h.counted.failed hu hform hfailed) hpools hobjs)

/-- **One call.** -/
theorem Mirrored.step (h : Mirrored bits order p nodes w) {c : BootCall}
    (hc : c.Legal bits order p w) :
    Ends (fun e => e = .panic) (Mirrored bits order p nodes) (bootStep bits order p nodes c w) := by
  cases c with
  | objtableInit => exact .ok (h.objtable_init hc)
  | kernel c =>
    obtain ⟨hlegal, hapart, hfed, hmore⟩ := hc
    cases c with
    | sys c =>
      refine Ends.bind ((h.exec_sys hnodes hb h12 ho hlegal hapart).final hfed) fun s' hs => ?_
      obtain ⟨-, hs⟩ := hs
      exact .ok hs
    | create a slabs =>
      obtain ⟨haddr, hfew, hbacked⟩ := hmore
      refine Ends.bind ((h.exec_create hnodes hb h12 ho hlegal hapart haddr hfew hbacked).final hfed)
        fun s' hs => ?_
      obtain ⟨-, hs⟩ := hs
      exact .ok hs
    | pdInit =>
      obtain ⟨T, hT, hmirrored⟩ := h.pd_init hmore.1 hmore.2
      have hrun : bootStep bits order p nodes (.kernel .pdInit) w =
          .ok ⟨{ w.sys with objs := { w.sys.objs with initialized := true } }, T⟩ := by
        simp only [bootStep, hT]
        rfl
      rw [hrun]
      exact .ok hmirrored

end

/-! ### Lookups -/

section

variable {bits order p : Nat} {nodes : Nat → Nat} {s : Sys} {w : Kern} {a : Nat}

theorem Counted.section_unique (h : Counted bits order s) {e f : Option Nat × Memsection}
    (he : e ∈ s.objs.sections) (hf : f ∈ s.objs.sections) (hea : e.2.Contains a)
    (hfa : f.2.Contains a) : e = f := by
  by_contra hne
  have : Std.Symm fun e f : Option Nat × Memsection => ¬ Meets e.2 f.2 :=
    ⟨fun e f hno hmeets => hno (meets_symm hmeets)⟩
  exact h.exclusive.apart.forall he hf hne ⟨a, hea, hfa⟩

theorem Counted.pool_unique (h : Counted bits order s) {q r : Pool} (hq : q ∈ s.pools)
    (hr : r ∈ s.pools) {m n : Nat} (hqa : (poolSection bits m q).Contains a)
    (hra : (poolSection bits n r).Contains a) : q = r := by
  by_contra hne
  have : Std.Symm fun q r : Pool => ∀ m n, ¬ Meets (poolSection bits m q) (poolSection bits n r) :=
    ⟨fun q r hno m n hmeets => hno n m (meets_symm hmeets)⟩
  exact (h.pools_apart (by positivity)).forall hq hr hne m n ⟨a, hqa, hra⟩

theorem Mirrored.finds (h : Mirrored bits order p nodes w)
    (hgood : w.sys.objs.initialized = true → a = p + 16 →
      ∃ e ∈ w.sys.objs.sections, e.1.isSome = true ∧ e.2.Contains a) : Finds bits nodes w a := by
  have hpos : 0 < 2 ^ bits := by positivity
  obtain ⟨v, hv⟩ := h.rings
  have hcorrect : LookupCorrect w.table a := by
    refine (hv.lookup_correct_iff a).mpr ?_
    rintro ⟨hinit, hhead, hnone⟩
    obtain ⟨e, he, hlist, hcontains⟩ := hgood (h.initialized.symm.trans hinit) hhead
    refine hnone e.2 ?_ hcontains
    cases hv.phase with
    | booting hno => exact absurd (hinit.symm.trans hno) (by decide)
    | booted _ _ _ _ _ _ _ htable =>
      obtain ⟨tree, htree⟩ := htable
      rw [treeObjs, htree, h.tree tree htree]
      exact h.stored.mem_iff.mpr (List.mem_map.mpr ⟨e, List.mem_filter.mpr ⟨he, hlist⟩, rfl⟩)
  rw [LookupCorrect] at hcorrect
  -- the memsection that the lookup returns is a created one or a pool
  cases hlookup : objtableLookup w.table a with
  | none =>
    rw [hlookup] at hcorrect
    exact hcorrect.elim
  | some found =>
    rw [hlookup] at hcorrect
    cases found with
    | none =>
      have hcorrect' : ¬ ∃ o ∈ w.table.created, o.Contains a := hcorrect
      refine ⟨fun e he hea => absurd ⟨e.2, h.sections e he, hea⟩ hcorrect', fun q hq hlo hhi => ?_,
        fun _ _ => hlookup⟩
      obtain ⟨n, hn⟩ := h.pools q hq
      have hqa : (poolSection bits (nodes n) q).Contains a := ⟨hlo, by
        show a ≤ q.virt + (2 ^ bits - 1)
        omega⟩
      exact absurd ⟨_, hn, hqa⟩ hcorrect'
    | some o =>
      obtain ⟨ho, hoa⟩ : o ∈ w.table.created ∧ o.Contains a := hcorrect
      rcases h.only o ho with ⟨f, hf, rfl⟩ | ⟨r, hr, n, rfl⟩
      · refine ⟨fun e he hea => ?_, fun q hq hlo hhi => ?_, fun hno _ => absurd hoa (hno f hf)⟩
        · rw [hlookup, h.counted.section_unique he hf hea hoa]
        · have hqa : (poolSection bits 0 q).Contains a := ⟨hlo, by
            show a ≤ q.virt + (2 ^ bits - 1)
            omega⟩
          exact absurd ⟨a, hoa, hqa⟩ (h.counted.section_pool hpos hf hq 0)
      · refine ⟨fun e he hea => ?_, fun q hq hlo hhi => ?_, fun _ hno => ?_⟩
        · exact absurd ⟨a, hea, hoa⟩ (h.counted.section_pool hpos he hr _)
        · have hqa : (poolSection bits 0 q).Contains a := ⟨hlo, by
            show a ≤ q.virt + (2 ^ bits - 1)
            omega⟩
          obtain rfl := h.counted.pool_unique hq hr hqa hoa
          exact ⟨n, hlookup⟩
        · have hlo : r.virt ≤ a := hoa.1
          have hhi : a ≤ r.virt + (2 ^ bits - 1) := hoa.2
          exact absurd ⟨hlo, by omega⟩ (hno r hr)

end

theorem mirrored_init {bits order p : Nat} {nodes : Nat → Nat} :
    Mirrored bits order p nodes Kern.init := by
  refine ⟨counted_init, kept_empty _ _, List.Perm.nil, fun _ e he => absurd he List.not_mem_nil,
    ⟨[], tinv_init endlessPool_grants⟩, rfl, fun tree ht => ?_, fun e he => absurd he List.not_mem_nil,
    fun q hq => absurd hq List.not_mem_nil, fun o ho => absurd ho List.not_mem_nil⟩
  cases ht

/-- The calls of `populated`, with `sys$objtable_init` before `sys$pd_init`. -/
def bootCalls : List BootCall :=
  ((boot 256).map KernelCall.sys ++ firstSections.take 2).map BootCall.kernel ++
    .objtableInit :: (firstSections.drop 2).map BootCall.kernel

/-- What of `Legal` the calls have to be run for. -/
def BootCall.Checked (w : Kern) : BootCall → Prop
  | objtableInit => w.sys.objs.initialized = false
  | kernel c => c.Checked w.sys ∧ c.Fed 12 255 w.sys ∧
      match c with
      | .sys _ => True
      | .create a slabs => slabs.ms ≠ 0x2000000 + 16 ∧ w.sys.objs.sections.length < 255 * 128 ∧
          (a.BacksFixed → (pdCreateMemsection 12 255 a slabs w.sys).result ≠ .ok none)
      | .pdInit => w.sys.objs.initialized = false ∧ w.table.objtable.isSome = true

instance (w : Kern) : DecidablePred (BootCall.Checked w)
  | .objtableInit => inferInstanceAs (Decidable (_ = _))
  | .kernel (.sys _) => inferInstanceAs (Decidable (_ ∧ _ ∧ True))
  | .kernel (.create _ _) => inferInstanceAs (Decidable (_ ∧ _ ∧ _ ∧ _ ∧ _))
  | .kernel .pdInit => inferInstanceAs (Decidable (_ ∧ _ ∧ _ ∧ _))

theorem bootCalls_legal :
    Along (bootStep 12 255 0x2000000 fun n => 0x40000000 + n)
      (fun c w => c.Legal 12 255 0x2000000 w) bootCalls Kern.init := by
  have hchecked : Along (bootStep 12 255 0x2000000 fun n => 0x40000000 + n) (fun c w => c.Checked w)
      bootCalls Kern.init := by decide +kernel
  have hlegal : Along (bootStep 12 255 0x2000000 fun n => 0x40000000 + n)
      (fun c w => ∀ k, c = .kernel k → k.Legal 12 w.sys) bootCalls Kern.init := by
    have hvm : bootStep 12 255 0x2000000 (fun n => 0x40000000 + n)
        (.kernel (.sys (.on .vm (.freeInternal 0x40000000 0x40ffffff)))) Kern.init =
          .ok ⟨bootVm, Table.init endlessPool⟩ := rfl
    refine .cons hvm ?_ ⟨?_, fun w _ => Along.of_forall (fun c hc w => ?_) w⟩
    · rintro k hk
      obtain rfl := BootCall.kernel.inj hk
      exact ⟨⟨⟨by decide, by decide⟩, by decide, by decide, fun x _ _ => own_empty x⟩,
        ⟨by decide, fun h => absurd h (by decide)⟩, fun _ _ => rfl⟩
    · rintro k hk
      obtain rfl := BootCall.kernel.inj hk
      exact ⟨⟨⟨by decide, by decide⟩, by decide, by decide, fun x _ _ => own_empty x⟩,
        ⟨by decide, fun h => absurd h (by decide)⟩, fun _ _ => rfl⟩
    · rintro k rfl
      have hk : k ∈ firstSections := by
        simpa [firstSections] using hc
      exact firstSections_legal hk w.sys
  refine (hlegal.and hchecked).mono fun c w h => ?_
  cases c with
  | objtableInit => exact h.2
  | kernel c =>
    obtain ⟨hk, hcheck, hfed, hmore⟩ := h
    refine ⟨hk c rfl, hcheck.apart, hfed, ?_⟩
    cases c with
    | sys c => exact trivial
    | create a slabs => exact hmore
    | pdInit => exact ⟨hmore.1, Option.isSome_iff_ne_none.mp hmore.2⟩

end FreeVMS.Kernel.Sections
