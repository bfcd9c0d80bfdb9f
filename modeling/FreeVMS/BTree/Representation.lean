import FreeVMS.BTree.Overlap
import Mathlib.Data.List.Nodup

/-!
# The representation invariant

The invariant of the B+tree in the terms of `b_plus_tree.h`: order of the keys,
occupancy of the pages, what each key is, and that every object sits in one leaf slot.
`rep_iff` identifies it with the form the insertion proof carries, a tree that is `Good`
and whose list of objects is sorted.
-/

namespace FreeVMS.BTree

open IntervalList

/-- Entry `i` of a page whose children are `n` levels high: in a leaf the key is the base
    of the object to its right, in an inner page it is the least base on its right and
    above every base on its left. -/
def Entry (n : Nat) (key : Nat → Nat) (child : Nat → BTPtr) (i : Nat) : Prop :=
  if n = 0 then ∃ o, child (i + 1) = .obj o ∧ key i = o.base
  else (∃ x ∈ objs (child (i + 1)), x.base = key i) ∧
    (∀ x ∈ objs (child (i + 1)), key i ≤ x.base) ∧ ∀ x ∈ objs (child i), x.base < key i

/-- A tree of `n` levels of pages with the right keys, whose pages other than the root have
    at least `lo` keys. -/
def Rep (order lo : Nat) : Nat → BTPtr → Prop
  | 0, t => ∃ o, t = .obj o
  | n + 1, .page count isleaf _ key child =>
      count ≤ maxKey order ∧ isleaf = decide (n = 0) ∧
        (∀ i j, i < j → j < count → key i < key j) ∧
        (∀ i ≤ count, Rep order lo n (child i) ∧ (n ≠ 0 → lo ≤ (child i).keys)) ∧
        ∀ i < count, Entry n key child i
  | _ + 1, _ => False

/-- The first object of a leaf lies below the first key: the part of
    `child[i]<key[i]<=child[i+1]` that the keys of a leaf do not show. -/
def LeafOrdered : Nat → BTPtr → Prop
  | 0, _ => True
  | n + 1, .page count _ _ key child =>
      (n = 0 → 0 < count → ∀ x ∈ objs (child 0), x.base < key 0) ∧
        ∀ i ≤ count, LeafOrdered n (child i)
  | _ + 1, _ => True

/-- Key `i` of a page. -/
def BTPtr.keyAt : BTPtr → Nat → Nat
  | .page _ _ _ key _, i => key i
  | _, _ => 0

/-- Child `i` of a page. -/
def BTPtr.childAt : BTPtr → Nat → BTPtr
  | .page _ _ _ _ child, i => child i
  | _, _ => .null

section

variable {order lo : Nat}

theorem Rep.page_eq {n : Nat} {t : BTPtr} (h : Rep order lo (n + 1) t) :
    ∃ count isleaf pad key child, t = .page count isleaf pad key child := by
  cases t with
  | null => exact absurd h id
  | obj o => exact absurd h id
  | page count isleaf pad key child => exact ⟨count, isleaf, pad, key, child, rfl⟩

theorem Rep.childAt {n : Nat} {t : BTPtr} (h : Rep order lo (n + 1) t) {i : Nat}
    (hi : i ≤ t.keys) : Rep order lo n (t.childAt i) := by
  obtain ⟨count, isleaf, pad, key, child, rfl⟩ := h.page_eq
  exact (h.2.2.2.1 i hi).1

theorem Rep.keyAt_lt {n : Nat} {t : BTPtr} (h : Rep order lo (n + 1) t) {i j : Nat}
    (hij : i < j) (hj : j < t.keys) : t.keyAt i < t.keyAt j := by
  obtain ⟨count, isleaf, pad, key, child, rfl⟩ := h.page_eq
  exact h.2.2.1 i j hij hj

theorem sorted_seg {child : Nat → BTPtr} {c : Nat}
    (hchild : ∀ i ≤ c, Sorted Memsection.base (objs (child i)))
    (hcross : ∀ i j, i < j → j ≤ c → ∀ x ∈ objs (child i), ∀ y ∈ objs (child j), x.base < y.base) :
    Sorted Memsection.base (seg child 0 (c + 1)) := by
  refine List.pairwise_flatMap.mpr ⟨fun i hi => ?_, ?_⟩
  · have := List.mem_range'_1.mp hi
    exact hchild i (by omega)
  · refine List.Pairwise.imp_of_mem ?_ List.pairwise_lt_range'
    intro i j hi hj hlt
    have := List.mem_range'_1.mp hj
    exact hcross i j hlt (by omega)

/-- The objects on the two sides of an entry. -/
theorem entry_sides {n count : Nat} {key : Nat → Nat} {child : Nat → BTPtr}
    (hkeys : ∀ i j, i < j → j < count → key i < key j)
    (hentry : ∀ i < count, Entry n key child i)
    (hfirst : n = 0 → 0 < count → ∀ x ∈ objs (child 0), x.base < key 0) :
    ∀ i < count, (∀ x ∈ objs (child i), x.base < key i) ∧
      ∀ x ∈ objs (child (i + 1)), key i ≤ x.base := by
  intro i hi
  have he := hentry i hi
  by_cases hn : n = 0
  · rw [Entry, if_pos hn] at he
    obtain ⟨o, hc, hk⟩ := he
    constructor
    · intro x hx
      cases i with
      | zero => exact hfirst hn hi x hx
      | succ i =>
        have hp := hentry i (by omega)
        rw [Entry, if_pos hn] at hp
        obtain ⟨p, hpc, hpk⟩ := hp
        rw [hpc] at hx
        obtain rfl := List.mem_singleton.mp hx
        rw [← hpk]
        exact hkeys i (i + 1) (by omega) hi
    · intro x hx
      rw [hc] at hx
      obtain rfl := List.mem_singleton.mp hx
      exact le_of_eq hk
  · rw [Entry, if_neg hn] at he
    exact ⟨he.2.2, he.2.1⟩

theorem Rep.good_sorted :
    ∀ (n : Nat) (t : BTPtr), Rep order lo n t → LeafOrdered n t →
      Good true lo (maxKey order) n t ∧ Sorted Memsection.base (objs t) := by
  intro n
  induction n with
  | zero =>
    rintro t ⟨o, rfl⟩ -
    exact ⟨⟨o, rfl⟩, List.pairwise_singleton _ _⟩
  | succ n ih =>
    intro t h hord
    obtain ⟨count, isleaf, pad, key, child, rfl⟩ := h.page_eq
    obtain ⟨hc, hl, hkeys, hch, hentry⟩ := h
    have hsub : ∀ i ≤ count, Good true lo (maxKey order) n (child i) ∧
        Sorted Memsection.base (objs (child i)) :=
      fun i hi => ih (child i) (hch i hi).1 (hord.2 i hi)
    have hsides := entry_sides hkeys hentry hord.1
    refine ⟨⟨hc, hl, fun i hi => ⟨(hsub i hi).1, (hch i hi).2⟩, fun i hi _ => ?_⟩, ?_⟩
    · -- the least object on the right is the first one
      have he := hentry i hi
      by_cases hn : n = 0
      · rw [Entry, if_pos hn] at he
        obtain ⟨o, hco, hk⟩ := he
        exact ⟨o, by rw [hco]; rfl, hk.symm⟩
      · rw [Entry, if_neg hn] at he
        obtain ⟨⟨x, hx, hxk⟩, hleast, -⟩ := he
        have hsort := (hsub (i + 1) (by omega)).2
        cases hobjs : objs (child (i + 1)) with
        | nil => rw [hobjs] at hx; cases hx
        | cons y ys =>
          refine ⟨y, by rw [List.head?_cons], ?_⟩
          rw [hobjs] at hx hleast hsort
          have hy := hleast y List.mem_cons_self
          rcases List.mem_cons.mp hx with rfl | hx
          · exact hxk
          · have := (List.pairwise_cons.mp hsort).1 x hx
            omega
    · rw [objs_page]
      refine sorted_seg (fun i hi => (hsub i hi).2) ?_
      intro i j hij hj x hx y hy
      have h1 := (hsides i (by omega)).1 x hx
      have h2 := (hsides (j - 1) (by omega)).2 y (by rwa [Nat.sub_add_cancel (by omega)])
      by_cases heq : i = j - 1
      · subst heq
        omega
      · have := hkeys i (j - 1) (by omega) (by omega)
        omega

theorem Good.rep :
    ∀ (n : Nat) (t : BTPtr), Good true lo (maxKey order) n t → Sorted Memsection.base (objs t) →
      Rep order lo n t ∧ LeafOrdered n t := by
  intro n
  induction n with
  | zero => exact fun t h _ => ⟨h, trivial⟩
  | succ n ih =>
    intro t h hs
    obtain ⟨count, isleaf, pad, key, child, rfl⟩ := h.page_eq
    rw [objs_page] at hs
    have hg := h
    obtain ⟨hc, hl, hch, hk⟩ := h
    have hsub : ∀ i ≤ count, Rep order lo n (child i) ∧ LeafOrdered n (child i) := by
      intro i hi
      refine ih (child i) (hch i hi).1 ?_
      rw [seg_window child hi] at hs
      exact (sorted_append.mp (sorted_append.mp hs).1).2.1
    have hleft : ∀ i < count, ∀ x ∈ objs (child i), x.base < key i := fun i hi x hx =>
      (hg.separates hs hi).1 x (mem_seg.mpr ⟨i, by omega, by omega, hx⟩)
    refine ⟨⟨hc, hl, fun i j hij hj => hg.keys_lt hs hij hj,
      fun i hi => ⟨(hsub i hi).1, (hch i hi).2⟩, fun i hi => ?_⟩,
      fun _ hpos => hleft 0 hpos, fun i hi => (hsub i hi).2⟩
    obtain ⟨x, hx, hxk⟩ := hk i hi rfl
    by_cases hn : n = 0
    · subst hn
      obtain ⟨o, ho⟩ := (hch (i + 1) (by omega)).1
      rw [ho] at hx
      obtain rfl : o = x := Option.some.inj hx
      rw [Entry, if_pos rfl]
      exact ⟨o, ho, hxk.symm⟩
    · rw [Entry, if_neg hn]
      refine ⟨⟨x, List.mem_of_mem_head? hx, hxk⟩, fun y hy => ?_, hleft i hi⟩
      exact (hg.separates hs hi).2 y (mem_seg.mpr ⟨i + 1, by omega, by omega, hy⟩)

/-- The invariant of `b_plus_tree.h` is the one the insertion proof carries. -/
theorem rep_iff (n : Nat) (t : BTPtr) :
    Rep order lo n t ∧ LeafOrdered n t ↔
      Good true lo (maxKey order) n t ∧ Sorted Memsection.base (objs t) :=
  ⟨fun h => h.1.good_sorted n t h.2, fun h => h.1.rep n t h.2⟩

end

/-! ### Runs with disjoint objects -/

/-- The tree after the insertion of the objects `os`. -/
structure RepInv (order : Nat) (t : BTreeS) (os : List Memsection) : Prop where
  rep : os = [] ∧ t.root = .null ∨ ∃ n, t.depth = n + 1 ∧
    Rep order (minKey order) (n + 1) t.root ∧ LeafOrdered (n + 1) t.root
  stored : (objs t.root).Perm os
  once : ∀ o ∈ os, (objs t.root).count o = 1

theorem Kept.repInv {order : Nat} {t : BTreeS} {os : List Memsection}
    (h : Kept order (minKey order) t) (hperm : (objs t.root).Perm os) : RepInv order t os := by
  have hsort := h.chain.sorted h.proper
  refine ⟨?_, hperm, fun o ho => ?_⟩
  · rcases h.formed with hnull | ⟨n, hd, hg⟩
    · rw [hnull] at hperm
      exact Or.inl ⟨hperm.nil_eq.symm, hnull⟩
    · exact Or.inr ⟨n, hd, (rep_iff (n + 1) t.root).mpr ⟨hg, hsort⟩⟩
  · exact List.count_eq_one_of_mem hsort.nodup (hperm.mem_iff.mpr ho)

/-- **Representation invariant.**  After every run of insertions of pairwise disjoint
    objects in which no inner page is split exactly in the middle, the tree satisfies the
    invariant and holds each object in one leaf slot. -/
theorem insertRun_repInv {order : Nat} (hv : ValidOrder order) (os : List Memsection)
    (pool : PagePool) (hpool : ∀ i, pool.grant i ≠ none) (hos : ∀ o ∈ os, o.base ≤ o.end_)
    (hdisj : os.Pairwise (Apart Memsection.base Memsection.end_))
    (hmed : Along order (fun t o => medianSplit order o t.root = false) os emptyTree pool) :
    ∃ t pool', insertRun order os emptyTree pool = some (t, pool') ∧ RepInv order t os := by
  have hstep : ∀ (done : List Memsection) (t : BTreeS) (pool : PagePool) (o : Memsection),
      (Kept order (minKey order) t ∧ (objs t.root).Perm done ∧ ∀ i, pool.grant i ≠ none) →
      medianSplit order o t.root = false →
      (o.base ≤ o.end_ ∧ ∀ x ∈ done, Apart Memsection.base Memsection.end_ o x) →
      ∃ out, objBTIns order t o .null pool = some out ∧
        (Kept order (minKey order) out.btree ∧ (objs out.btree.root).Perm (o :: done) ∧
          ∀ i, out.pool.grant i ≠ none) := by
    intro done t pool o hI hm hQ
    obtain ⟨hk, hperm, hgr⟩ := hI
    obtain ⟨out, hout, hk', hperm', hgrant, -⟩ := hk.insert_clear hv (Nat.le_refl _) hQ.1
      (fun x hx => hQ.2 x (hperm.mem_iff.mp hx)) hm .null hgr
    exact ⟨out, hout, hk', hperm'.trans (hperm.cons o), by rw [hgrant]; exact hgr⟩
  obtain ⟨t, pool', hrun, hk, hperm, -⟩ := insertRun_induction hstep os [] emptyTree pool
    ⟨kept_empty order (minKey order), List.Perm.nil, hpool⟩ hmed (by
      intro p o s heq
      rw [heq] at hdisj hos
      refine ⟨hos o (by simp), fun x hx => ?_⟩
      rw [List.append_nil, List.mem_reverse] at hx
      exact ((List.pairwise_append.mp hdisj).2.2 x hx o List.mem_cons_self).symm)
  refine ⟨t, pool', hrun, hk.repInv (hperm.trans ?_)⟩
  rw [List.append_nil]
  exact List.reverse_perm os

theorem insertRun_repInv_split :
    Along 5 (fun t o => medianSplit 5 o t.root = false)
      [⟨1, 30, 39⟩, ⟨2, 10, 19⟩, ⟨3, 50, 59⟩, ⟨4, 20, 29⟩, ⟨5, 40, 49⟩, ⟨6, 0, 9⟩] emptyTree
      endlessPool ∧
    ∃ t pool', insertRun 5
      [⟨1, 30, 39⟩, ⟨2, 10, 19⟩, ⟨3, 50, 59⟩, ⟨4, 20, 29⟩, ⟨5, 40, 49⟩, ⟨6, 0, 9⟩] emptyTree
      endlessPool = some (t, pool') ∧ RepInv 5 t
        [⟨1, 30, 39⟩, ⟨2, 10, 19⟩, ⟨3, 50, 59⟩, ⟨4, 20, 29⟩, ⟨5, 40, 49⟩, ⟨6, 0, 9⟩] := by
  have hmed : Along 5 (fun t o => medianSplit 5 o t.root = false)
      [⟨1, 30, 39⟩, ⟨2, 10, 19⟩, ⟨3, 50, 59⟩, ⟨4, 20, 29⟩, ⟨5, 40, 49⟩, ⟨6, 0, 9⟩] emptyTree
      endlessPool :=
    along_cons rfl (by decide +kernel) (along_cons rfl (by decide +kernel)
      (along_cons rfl (by decide +kernel) (along_cons rfl (by decide +kernel)
        (along_cons rfl (by decide +kernel) (along_cons rfl (by decide +kernel) trivial)))))
  have hapart : [(⟨1, 30, 39⟩ : Memsection), ⟨2, 10, 19⟩, ⟨3, 50, 59⟩, ⟨4, 20, 29⟩, ⟨5, 40, 49⟩,
      ⟨6, 0, 9⟩].Pairwise (Apart Memsection.base Memsection.end_) := by
    unfold Apart
    decide
  exact ⟨hmed, insertRun_repInv ⟨by decide, by decide⟩ _ endlessPool endlessPool_grants
    (by decide) hapart hmed⟩

/-- Fifteen objects that fill the root of a tree of order 5, and three more that split the
    leaf in the middle. -/
def medianRun : List Memsection :=
  [10, 20, 30, 40, 50, 60, 70, 80, 90, 100, 110, 120, 130, 140, 150, 71, 72, 73].map
    fun b => ⟨b, b, b⟩

/-- The last insertion of `medianRun` leaves an inner page whose first key is `2 + 2 ^ 32`,
    the count and the leaf flag of a page read as an object, and whose second is `130`. -/
theorem median_split_breaks_keys :
    (∀ i, endlessPool.grant i ≠ none) ∧ (∀ o ∈ medianRun, o.base ≤ o.end_) ∧
    medianRun.Pairwise (Apart Memsection.base Memsection.end_) ∧
    ∃ t pool', insertRun 5 medianRun emptyTree endlessPool = some (t, pool') ∧
      ¬ RepInv 5 t medianRun := by
  refine ⟨endlessPool_grants, by decide, by unfold Apart; decide, ?_⟩
  have hrun : (insertRun 5 medianRun emptyTree endlessPool).map (fun p =>
      (p.1.depth, p.1.root.keys, (p.1.root.childAt 1).keys, (p.1.root.childAt 1).keyAt 0,
        (p.1.root.childAt 1).keyAt 1)) = some (3, 1, 2, 2 + 2 ^ 32, 130) := by
    decide +kernel
  cases hr : insertRun 5 medianRun emptyTree endlessPool with
  | none => rw [hr] at hrun; cases hrun
  | some p =>
    obtain ⟨t, pool'⟩ := p
    rw [hr, Option.map_some] at hrun
    simp only [Option.some.injEq, Prod.mk.injEq] at hrun
    obtain ⟨hdepth, hkeys, hkeys', hk0, hk1⟩ := hrun
    refine ⟨t, pool', rfl, fun h => ?_⟩
    rcases h.rep with ⟨hnil, -⟩ | ⟨n, hd, hrep, -⟩
    · exact absurd hnil (by decide)
    · obtain rfl : n = 2 := by omega
      have hlt := (hrep.childAt (show 1 ≤ t.root.keys by omega)).keyAt_lt
        (show 0 < 1 by omega) (by omega)
      rw [hk0, hk1] at hlt
      exact absurd hlt (by decide)

end FreeVMS.BTree
