import FreeVMS.Rtl.TreeInsert
import Mathlib.Data.List.Induction

/-!
# The trees of the run-time library are sorted sets

After any calls of `lib$insert_tree` the traversal visits the nodes of a sorted set, and a call adds
its key to that set or finds it there.  `lib$lookup_tree` finds what was inserted, except in the
empty tree, where the search of an insertion has nothing to say but "equal".
-/

namespace FreeVMS.Rtl.Tree

open SearchTree

variable {K σ : Type}

/-! ### Traversal -/

/-- Visit nodes one after the other, until an action fails. -/
def visit (act : Nat → σ → Nat × σ) : List Nat → σ → Nat × σ
  | [], data => (libNormal, data)
  | n :: ns, data =>
      if (act n data).1 % 2 = 0 then act n data else visit act ns (act n data).2

theorem libNormal_odd : ¬ libNormal % 2 = 0 := by decide

theorem visit_append (act : Nat → σ → Nat × σ) (ns ns' : List Nat) (data : σ) :
    visit act (ns ++ ns') data =
      if (visit act ns data).1 % 2 = 0 then visit act ns data
      else visit act ns' (visit act ns data).2 := by
  induction ns generalizing data with
  | nil => rw [List.nil_append, visit, if_neg libNormal_odd]
  | cons n ns ih =>
    simp only [List.cons_append, visit, ih]
    split_ifs <;> simp_all

theorem traverseNode_eq {m : Memory K} {act : Nat → σ → Nat × σ} : ∀ {t : Avl K} {fuel : Nat}
    (data : σ), t.height < fuel → Stored m t →
    traverseNode m act fuel (root t) data = .ok (visit act (addrs t) data) := by
  intro t
  induction t with
  | nil =>
    intro fuel data hfuel _
    obtain ⟨fuel, rfl⟩ : ∃ f, fuel = f + 1 := ⟨fuel - 1, by omega⟩
    rfl
  | node l e r ihl ihr =>
    intro fuel data hfuel hs
    rw [Tree.height_node] at hfuel
    obtain ⟨fuel, rfl⟩ : ∃ f, fuel = f + 1 := ⟨fuel - 1, by omega⟩
    obtain ⟨he, hn, hl, hr⟩ := hs
    rw [traverseNode, root_node, if_neg he, hn, ihl data (by omega) hl, ok_bind, addrs_node,
      visit_append, visit]
    simp only
    split_ifs
    · rfl
    · rfl
    · exact ihr _ (by omega) hr

/-- An action that never fails sees all the nodes. -/
theorem visit_of_success {act : Nat → σ → Nat × σ} (h : ∀ n data, (act n data).1 % 2 = 1)
    (ns : List Nat) (data : σ) :
    visit act ns data = (libNormal, ns.foldl (fun data n => (act n data).2) data) := by
  induction ns generalizing data with
  | nil => rfl
  | cons n ns ih =>
    have := h n data
    rw [visit, if_neg (by omega), ih, List.foldl_cons]

/-- The traversal with an action that never fails visits exactly these nodes, in this order, and
    they have these keys. -/
def Visits (fuel : Nat) (m : Memory K) (ns : List (Nat × K)) : Prop :=
  (∀ (σ : Type) (act : Nat → σ → Nat × σ) (data : σ), (∀ n data, (act n data).1 % 2 = 1) →
    traverseTree fuel m act data =
      .ok (libNormal, (ns.map Prod.fst).foldl (fun data n => (act n data).2) data)) ∧
  ∀ n ∈ ns, (m.node n.1).item = n.2

theorem Stored.item {m : Memory K} {t : Avl K} (h : Stored m t) :
    ∀ n ∈ nodes t, n.1 ≠ 0 ∧ (m.node n.1).item = n.2 := by
  induction t with
  | nil => exact fun n hn => absurd hn List.not_mem_nil
  | node l e r ihl ihr =>
    intro n hn
    obtain ⟨he, hnode, hl, hr⟩ := h
    rw [nodes_node, List.mem_append, List.mem_cons] at hn
    rcases hn with hn | rfl | hn
    · exact ihl hl n hn
    · exact ⟨he, by rw [hnode]⟩
    · exact ihr hr n hn

section Compare

variable {cmp : K → K → Int}

theorem Holds.visits {fuel : Nat} {m : Memory K} {t : Avl K} (h : Holds cmp m t)
    (hfuel : t.height < fuel) : Visits fuel m (nodes t) := by
  refine ⟨fun σ act data hact => ?_, fun n hn => (h.stored.item n hn).2⟩
  rw [traverseTree, h.head, traverseNode_eq data hfuel h.stored, visit_of_success hact,
    addrs_eq_map_nodes]

/-! ### Runs -/

/-- The nodes that the allocation procedure returned. -/
def newNodes (calls : List (Call K)) : List Nat :=
  (calls.filter fun c => c.Allocates).map Call.newNode

/-- Every node that the allocation procedure returns is a new one. -/
structure FreshCalls (calls : List (Call K)) : Prop where
  nonnull : 0 ∉ newNodes calls
  nodup : (newNodes calls).Nodup

variable (cmp) in
/-- The tree after calls of `lib$insert_tree`. -/
def treeAfter (calls : List (Call K)) : Avl K := calls.foldl (inserted cmp) .nil

theorem newNodes_concat (calls : List (Call K)) (c : Call K) :
    newNodes (calls ++ [c]) = newNodes calls ++ if c.Allocates then [c.newNode] else [] := by
  rw [newNodes, List.filter_append, List.map_append]
  split_ifs with h <;> simp [newNodes, h]

theorem FreshCalls.of_concat {calls : List (Call K)} {c : Call K} (h : FreshCalls (calls ++ [c])) :
    FreshCalls calls ∧ (c.Allocates → c.newNode ≠ 0 ∧ c.newNode ∉ newNodes calls) := by
  obtain ⟨hz, hnd⟩ := h
  rw [newNodes_concat] at hz hnd
  refine ⟨⟨fun h0 => hz (List.mem_append_left _ h0), (List.nodup_append.mp hnd).1⟩, fun ha => ?_⟩
  rw [if_pos ha] at hz hnd
  refine ⟨fun h0 => hz (by simp [h0]), fun hmem => ?_⟩
  exact (List.nodup_append.mp hnd).2.2 _ hmem _ (List.mem_singleton.mpr rfl) rfl

theorem insertAll_concat {fuel : Nat} {calls : List (Call K)} {c : Call K} {m m₁ m₂ : Memory K}
    {st : Nat} (h₁ : insertAll cmp fuel calls m = .ok m₁)
    (h₂ : insertTree cmp fuel m₁ c = .ok (m₂, st)) :
    insertAll cmp fuel (calls ++ [c]) m = .ok m₂ := by
  have hstep : insertStep cmp fuel c m₁ = .ok m₂ := by
    rw [insertStep, h₂]
    rfl
  rw [insertAll, Run.runs_append, show Run.runs _ _ _ = _ from h₁]
  simp [Run.runs, hstep]

theorem treeAfter_concat (calls : List (Call K)) (c : Call K) :
    treeAfter cmp (calls ++ [c]) = inserted cmp (treeAfter cmp calls) c := by
  simp [treeAfter]

theorem inserted_of_not {t : Avl K} {c : Call K} (h : ¬ c.Allocates) : inserted cmp t c = t :=
  if_neg h

/-- What the tree after some calls holds: a sorted set of the keys of those calls. -/
theorem nodes_treeAfter (hc : Consistent cmp) (calls : List (Call K)) :
    Sorted (cmpNode cmp) (nodes (treeAfter cmp calls)) ∧
      (nodes (treeAfter cmp calls)).length ≤ calls.length ∧
      (∀ n ∈ nodes (treeAfter cmp calls), ∃ c ∈ calls, c.Allocates ∧ n = (c.newNode, c.symbol)) ∧
      ∀ c ∈ calls, c.Allocates → ∃ n ∈ nodes (treeAfter cmp calls), cmp c.symbol n.2 = 0 := by
  induction calls using List.reverseRecOn with
  | nil => exact ⟨.nil, Nat.le_refl _, fun n hn => absurd hn List.not_mem_nil, nofun⟩
  | append_singleton calls c ih =>
    obtain ⟨hs, hlen, hfrom, hto⟩ := ih
    rw [treeAfter_concat]
    by_cases ha : c.Allocates
    · have hnodes := nodes_inserted hc ha hs
      rw [hnodes]
      refine ⟨hs.insert (cmpNode_consistent hc), ?_, fun n hn => ?_, fun c' hc' ha' => ?_⟩
      · rw [List.length_append]
        exact Nat.le_trans (length_sortedInsert_le _ _) (Nat.succ_le_succ hlen)
      · rcases mem_sortedInsert hn with rfl | hn
        · exact ⟨c, by simp, ha, rfl⟩
        · obtain ⟨c', hc', h⟩ := hfrom n hn
          exact ⟨c', by simp [hc'], h⟩
      · rcases List.mem_append.mp hc' with hc' | hc'
        · obtain ⟨n, hn, heq⟩ := hto c' hc' ha'
          exact ⟨n, subset_sortedInsert hn, heq⟩
        · obtain rfl := List.mem_singleton.mp hc'
          exact exists_mem_sortedInsert (cmpNode_consistent hc) _ _
    · rw [inserted_of_not ha]
      refine ⟨hs, by simp; omega, fun n hn => ?_, fun c' hc' ha' => ?_⟩
      · obtain ⟨c', hc', h⟩ := hfrom n hn
        exact ⟨c', by simp [hc'], h⟩
      · rcases List.mem_append.mp hc' with hc' | hc'
        · exact hto c' hc' ha'
        · exact absurd (List.mem_singleton.mp hc' ▸ ha') ha

theorem height_treeAfter (hc : Consistent cmp) (calls : List (Call K)) :
    (treeAfter cmp calls).height ≤ calls.length := by
  have hlen := (nodes_treeAfter hc calls).2.1
  rw [nodes, List.length_map] at hlen
  exact Nat.le_trans (Tree.height_le_length _) hlen

/-- One more call of `lib$insert_tree`. -/
theorem insertTree_after (hc : Consistent cmp) {calls : List (Call K)} {c : Call K}
    (hfresh : FreshCalls (calls ++ [c])) {fuel : Nat} (hfuel : calls.length < fuel) {m : Memory K}
    (hh : Holds cmp m (treeAfter cmp calls)) :
    ∃ m', insertTree cmp fuel m c = .ok (m', insertStatus cmp (treeAfter cmp calls) c) ∧
      Holds cmp m' (treeAfter cmp (calls ++ [c])) := by
  have hnew := hfresh.of_concat.2
  have hheight := height_treeAfter hc calls
  rw [treeAfter_concat]
  refine insertTree_spec hc hh (Nat.lt_of_le_of_lt hheight hfuel) fun ha => ⟨(hnew ha).1, fun hmem => ?_⟩
  rw [addrs_eq_map_nodes, List.mem_map] at hmem
  obtain ⟨n, hn, hnc⟩ := hmem
  obtain ⟨c', hc', ha', rfl⟩ := (nodes_treeAfter hc calls).2.2.1 n hn
  exact (hnew ha).2 (List.mem_map.mpr ⟨c', List.mem_filter.mpr ⟨hc', by simpa using ha'⟩, hnc⟩)

/-- **Calls of `lib$insert_tree`**, from an empty tree: none of them faults, and the memory holds the
    tree. -/
theorem insertAll_spec (hc : Consistent cmp) {calls : List (Call K)} (hfresh : FreshCalls calls)
    {fuel : Nat} (hfuel : calls.length ≤ fuel) {m : Memory K} (hm : m.treehead = 0) :
    ∃ m', insertAll cmp fuel calls m = .ok m' ∧ Holds cmp m' (treeAfter cmp calls) := by
  induction calls using List.reverseRecOn with
  | nil => exact ⟨m, rfl, trivial, hm, List.nodup_nil, .nil⟩
  | append_singleton calls c ih =>
    rw [List.length_append, List.length_singleton] at hfuel
    obtain ⟨m₁, h₁, hh₁⟩ := ih hfresh.of_concat.1 (by omega)
    obtain ⟨m₂, h₂, hh₂⟩ := insertTree_after hc hfresh (by omega : calls.length < fuel) hh₁
    exact ⟨m₂, insertAll_concat h₁ h₂, hh₂⟩

/-! ### Sorted sets -/

variable (cmp) in
/-- What a call of `lib$insert_tree` does to a set: it finds its key, or adds exactly its node. -/
structure SetInsert (c : Call K) (ns : List (Nat × K)) (sts : Nat) (ns' : List (Nat × K)) : Prop where
  failed : ¬ c.Allocates → sts = libInsvirmem ∧ ns' = ns
  present : c.Allocates → (∃ n ∈ ns, cmp c.symbol n.2 = 0) → sts = libKeyalrins ∧ ns' = ns
  added : c.Allocates → (∀ n ∈ ns, cmp c.symbol n.2 ≠ 0) →
    sts = libNormal ∧ ns'.Perm ((c.newNode, c.symbol) :: ns)

theorem setInsert_inserted (hc : Consistent cmp) {t : Avl K} {c : Call K}
    (hs : Sorted (cmpNode cmp) (nodes t)) :
    SetInsert cmp c (nodes t) (insertStatus cmp t c) (nodes (inserted cmp t c)) := by
  refine ⟨fun ha => ?_, fun ha hex => ?_, fun ha hno => ?_⟩
  · rw [insertStatus, if_pos ha, inserted_of_not ha]
    exact ⟨rfl, rfl⟩
  · rw [insertStatus, if_neg (not_not.mpr ha), if_pos hex, nodes_inserted hc ha hs]
    obtain ⟨n, hn, heq⟩ := hex
    exact ⟨rfl, sortedInsert_of_mem (cmpNode_consistent hc) hs hn heq⟩
  · have hnone : ¬ ∃ n ∈ nodes t, cmp c.symbol n.2 = 0 := by
      rintro ⟨n, hn, heq⟩
      exact hno n hn heq
    rw [insertStatus, if_neg (not_not.mpr ha), if_neg hnone, nodes_inserted hc ha hs]
    exact ⟨rfl, perm_sortedInsert hno⟩

/-- **The tree is a sorted set.**  After any calls of `lib$insert_tree` on an empty tree, the traversal
    visits the nodes of a set, each of them once and in strictly increasing order of their keys, which
    are those of the calls; a further call finds its key in the set and leaves it as it is, or adds
    exactly its node.  No call faults, so no rotation follows a null link or loops. -/
theorem tree_refines_sorted_set (hc : Consistent cmp) (calls : List (Call K))
    (hfresh : FreshCalls calls) (fuel : Nat) (hfuel : calls.length + 1 < fuel) (m : Memory K)
    (hm : m.treehead = 0) :
    ∃ m' ns, insertAll cmp fuel calls m = .ok m' ∧ Visits fuel m' ns ∧
      Sorted (cmpNode cmp) ns ∧ (ns.map Prod.fst).Nodup ∧
      (∀ n ∈ ns, ∃ c ∈ calls, c.Allocates ∧ n = (c.newNode, c.symbol)) ∧
      (∀ c ∈ calls, c.Allocates → ∃ n ∈ ns, cmp c.symbol n.2 = 0) ∧
      ∀ c, FreshCalls (calls ++ [c]) → ∃ m'' sts ns', insertTree cmp fuel m' c = .ok (m'', sts) ∧
        Visits fuel m'' ns' ∧ SetInsert cmp c ns sts ns' := by
  obtain ⟨m', hrun, hh⟩ := insertAll_spec hc hfresh (by omega : calls.length ≤ fuel) hm
  obtain ⟨hs, -, hfrom, hto⟩ := nodes_treeAfter hc calls
  have hheight := height_treeAfter hc calls
  refine ⟨m', nodes (treeAfter cmp calls), hrun, hh.visits (by omega), hs, ?_, hfrom, hto,
    fun c hcfresh => ?_⟩
  · rw [← addrs_eq_map_nodes]
    exact hh.nodup
  · obtain ⟨m'', h'', hh''⟩ := insertTree_after hc hcfresh (by omega : calls.length < fuel) hh
    have hheight'' := height_treeAfter hc (calls ++ [c])
    rw [List.length_append, List.length_singleton] at hheight''
    refine ⟨m'', _, nodes (treeAfter cmp (calls ++ [c])), h'', hh''.visits (by omega), ?_⟩
    rw [treeAfter_concat]
    exact setInsert_inserted hc hs

/-! ### Lookup -/

variable (cmp) in
/-- `lib$lookup_tree` finds the key if and only if a call inserted it. -/
def LookupRight (fuel : Nat) (calls : List (Call K)) (m : Memory K) (key : K) : Prop :=
  ∃ sts node, lookupTree cmp fuel m key = .ok (sts, node) ∧
    if ∃ c ∈ calls, c.Allocates ∧ cmp key c.symbol = 0 then
      sts = libNormal ∧ node ≠ 0 ∧ cmp key (m.node node).item = 0
    else sts = libKeynotfou

theorem lookupTree_spec (hc : Consistent cmp) {fuel : Nat} {m : Memory K} {t : Avl K}
    (h : Holds cmp m t) (ht : t ≠ .nil) (hfuel : t.height ≤ fuel) (key : K) :
    ∃ sts node, lookupTree cmp fuel m key = .ok (sts, node) ∧
      if ∃ n ∈ nodes t, cmp key n.2 = 0 then
        sts = libNormal ∧ node ≠ 0 ∧ cmp key (m.node node).item = 0
      else sts = libKeynotfou := by
  have hhead : m.treehead ≠ 0 := h.head ▸ (root_eq_zero h.stored).not.mpr ht
  have hsearch : avlSearchClosest cmp fuel m key = .ok (place cmp key t 0) := by
    rw [avlSearchClosest, if_neg hhead, h.head, searchLoop_eq 0 ht hfuel h.stored]
  have habsent : (place cmp key t 0).1 ≠ .same → ∀ n ∈ nodes t, cmp key n.2 ≠ 0 :=
    place_absent hc 0 h.sorted
  have hfound : (place cmp key t 0).1 = .same →
      ∃ n ∈ nodes t, (place cmp key t 0).2.1 = n.1 ∧ cmp key n.2 = 0 :=
    place_found 0 ht
  rw [lookupTree, hsearch, ok_bind]
  generalize place cmp key t 0 = r at habsent hfound ⊢
  obtain ⟨f, n, q⟩ := r
  cases f with
  | same =>
    obtain ⟨n', hn', rfl, heq⟩ := hfound rfl
    obtain ⟨hne, hitem⟩ := h.stored.item n' hn'
    refine ⟨libNormal, n'.1, rfl, ?_⟩
    rw [if_pos ⟨n', hn', heq⟩, hitem]
    exact ⟨rfl, hne, heq⟩
  | before =>
    refine ⟨libKeynotfou, n, rfl, ?_⟩
    rw [if_neg]
    rintro ⟨n', hn', heq⟩
    exact habsent (show Found.before ≠ Found.same by decide) n' hn' heq
  | after =>
    refine ⟨libKeynotfou, n, rfl, ?_⟩
    rw [if_neg]
    rintro ⟨n', hn', heq⟩
    exact habsent (show Found.after ≠ Found.same by decide) n' hn' heq

/-- The lookup in an empty tree returns `LIB$_NORMAL` and a null pointer. -/
theorem lookupTree_empty {fuel : Nat} {m : Memory K} (hm : m.treehead = 0) (key : K) :
    lookupTree cmp fuel m key = .ok (libNormal, 0) := by
  rw [lookupTree, avlSearchClosest, if_pos hm]
  rfl

end Compare

/-! ### A run -/

/-- A comparison of numbers. -/
def compareNat (a b : Nat) : Int := a - b

theorem compareNat_consistent : Consistent compareNat :=
  ⟨fun a b => by simp only [compareNat]; omega, fun a b c => by simp only [compareNat]; omega⟩

/-- A call for a number, whose node is at the address above it. -/
def callFor (k : Nat) : Call Nat := ⟨k, 1, k + 1, 9⟩

def noTree : Memory Nat := ⟨0, fun _ => ⟨0, 0, 0, 0⟩⟩

theorem tree_refines_sorted_set_run :
    ∃ m' ns, insertAll compareNat 6 ([3, 1, 2].map callFor) noTree = .ok m' ∧ Visits 6 m' ns ∧
      Sorted (cmpNode compareNat) ns := by
  obtain ⟨m', ns, hrun, hvis, hs, -⟩ := tree_refines_sorted_set compareNat_consistent
    ([3, 1, 2].map callFor) ⟨by decide, by decide⟩ 6 (by decide) noTree rfl
  exact ⟨m', ns, hrun, hvis, hs⟩

end FreeVMS.Rtl.Tree
