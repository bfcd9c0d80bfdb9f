import FreeVMS.BTree.Table

/-!
# Overlap tests

`BTInsert` compares the new object with one separator on each level, with its
predecessor in the leaf, and with the leftmost object by the end point test
`BTOverlaps`.  On a tree of disjoint intervals these partial tests miss one kind of
overlap, an object that covers the leftmost one and sticks out on both sides
(`Swallows`), and nothing else.
-/

namespace FreeVMS.BTree

open IntervalList

/-- The object can be stored next to the others as far as the tests of `BTInsert` see. -/
def Passes (o : Memsection) (xs : List Memsection) : Prop :=
  Clear Memsection.base Memsection.end_ o xs ∨ Swallows Memsection.base Memsection.end_ o xs

/-- An object with base `o.base`, or one that begins inside `o` and is not the first, is
    neither apart from `o` nor swallowed by it. -/
theorem not_passes {o x : Memsection} {xs : List Memsection} (hx : x ∈ xs)
    (hproper : x.base ≤ x.end_) (hle : o.base ≤ x.base) (hin : x.base ≤ o.end_)
    (hfirst : x.base = o.base ∨ ∃ y ∈ xs.head?, y.base < x.base) : ¬ Passes o xs := by
  rintro (hclear | ⟨b, bs, rfl, h1, h2, h3⟩)
  · rcases hclear x hx with h | h
    · exact absurd h (by omega)
    · exact absurd h (by omega)
  · rcases List.mem_cons.mp hx with rfl | hx
    · rcases hfirst with h | ⟨y, hy, hlt⟩
      · omega
      · simp only [List.head?_cons, Option.mem_def, Option.some.injEq] at hy
        subst hy
        omega
    · have := h3 x hx
      omega

/-- The test against one object in the leaf. -/
theorem leaf_test_iff {o c : Memsection} (ho : o.base ≤ o.end_) (hc : c.base ≤ c.end_) {h : Nat}
    (hbefore : 0 < h → c.base < o.base) :
    (btObjMatch c o.base = true ∨ h = 0 ∧ btOverlaps o c = true) ↔ ¬ Passes o [c] := by
  have hpass : Passes o [c] ↔
      (o.end_ < c.base ∨ c.end_ < o.base) ∨ (o.base < c.base ∧ c.end_ < o.end_) := by
    constructor
    · rintro (h | ⟨b, bs, heq, h1, h2, -⟩)
      · exact Or.inl (h c List.mem_cons_self)
      · simp only [List.cons.injEq] at heq
        obtain ⟨rfl, -⟩ := heq
        exact Or.inr ⟨h1, h2⟩
    · rintro (h | ⟨h1, h2⟩)
      · refine Or.inl fun x hx => ?_
        obtain rfl := List.mem_singleton.mp hx
        exact h
      · exact Or.inr ⟨c, [], rfl, h1, h2, fun x hx => absurd hx List.not_mem_nil⟩
  rw [hpass]
  simp only [btObjMatch, btOverlaps, Bool.and_eq_true, Bool.or_eq_true, decide_eq_true_eq]
  rcases Nat.eq_zero_or_pos h with hz | hpos
  · omega
  · have := hbefore hpos
    omega

section

variable {lo hi : Nat} {o : Memsection}

/-- The first object of a page lies left of every child but the first. -/
theorem head_mem_left {n count : Nat} {isleaf : Bool} {pad : Nat} {key : Nat → Nat}
    {child : Nat → BTPtr} (hg : Good true lo hi (n + 1) (.page count isleaf pad key child))
    (i : Nat) : ∃ y, y ∈ (seg child 0 (count + 1)).head? ∧ y ∈ seg child 0 (i + 1) := by
  have hne := (hg.2.2.1 0 (Nat.zero_le _)).1.objs_ne_nil
  obtain ⟨y, hy⟩ := List.exists_mem_of_ne_nil _ hne
  cases hc : objs (child 0) with
  | nil => exact absurd hc hne
  | cons z zs =>
    refine ⟨z, ?_, ?_⟩
    · rw [seg_window child (Nat.zero_le count), seg_zero, List.nil_append, hc]
      rfl
    · exact mem_seg.mpr ⟨0, by omega, by omega, by rw [hc]; exact List.mem_cons_self⟩

/-- A test that fires on the way down has met an object that `o` overlaps. -/
theorem not_passes_of_key {n count : Nat} {isleaf : Bool} {pad : Nat} {key : Nat → Nat}
    {child : Nat → BTPtr} (hg : Good true lo hi (n + 1) (.page count isleaf pad key child))
    (hchain : Chain Memsection.base Memsection.end_ (seg child 0 (count + 1)))
    (hproper : Proper Memsection.base Memsection.end_ (seg child 0 (count + 1)))
    {i : Nat} (hi : i < count) (hle : o.base ≤ key i) (hin : key i ≤ o.end_) :
    ¬ Passes o (seg child 0 (count + 1)) := by
  obtain ⟨x, hx, hxk⟩ := hg.2.2.2 i hi rfl
  have hmem : x ∈ seg child 0 (count + 1) :=
    mem_seg.mpr ⟨i + 1, by omega, by omega, List.mem_of_mem_head? hx⟩
  obtain ⟨y, hy, hleft⟩ := head_mem_left hg i
  have hlt := (hg.separates (hchain.sorted hproper) hi).1 y hleft
  exact not_passes hmem (hproper x hmem) (by omega) (by omega) (Or.inr ⟨y, hy, by omega⟩)

/-- Past the test of a level, only the child on the path matters. -/
theorem passes_child {n count : Nat} {isleaf : Bool} {pad : Nat} {key : Nat → Nat}
    {child : Nat → BTPtr} {h : Nat}
    (hg : Good true lo hi (n + 1) (.page count isleaf pad key child))
    (hchain : Chain Memsection.base Memsection.end_ (seg child 0 (count + 1)))
    (hproper : Proper Memsection.base Memsection.end_ (seg child 0 (count + 1)))
    (hh : h ≤ count) (hlt : 0 < h → key (h - 1) < o.base)
    (hend : h < count → o.end_ < key h) :
    Passes o (seg child 0 (count + 1)) ↔ Passes o (objs (child h)) := by
  have hsort := hchain.sorted hproper
  -- the object whose base the separator left of the path is
  have hhead : 0 < h → ∃ x, (objs (child h)).head? = some x ∧ x.base < o.base := by
    intro hpos
    obtain ⟨x, hx, hxk⟩ := hg.2.2.2 (h - 1) (by omega) rfl
    rw [Nat.sub_add_cancel hpos] at hx
    exact ⟨x, hx, by rw [hxk]; exact hlt hpos⟩
  have hright : ∀ x ∈ seg child (h + 1) (count - h), o.end_ < x.base := by
    intro x hx
    by_cases hc : h = count
    · rw [hc, Nat.sub_self, seg_zero] at hx
      cases hx
    · have := (hg.separates hsort (show h < count by omega)).2 x hx
      have := hend (by omega)
      omega
  rw [seg_window child hh] at hchain hproper ⊢
  have hleft : ∀ x ∈ seg child 0 h, x.end_ < o.base := by
    intro x hx
    rcases Nat.eq_zero_or_pos h with hz | hpos
    · rw [hz, seg_zero] at hx
      cases hx
    · obtain ⟨y, hy, hyo⟩ := hhead hpos
      have := (chain_append.mp (chain_append.mp hchain).1).2.2 x hx y (List.mem_of_mem_head? hy)
      omega
  have hne := (hg.2.2.1 h hh).1.objs_ne_nil
  refine or_congr (clear_window hleft hright) (swallows_window hne ?_ hright ?_)
  · intro x hx
    have := hproper x (List.mem_append_left _ (List.mem_append_left _ hx))
    have := hleft x hx
    omega
  · intro hnil x hx
    have hpos : 0 < h := Nat.pos_of_ne_zero fun hz => hnil (by rw [hz, seg_zero])
    obtain ⟨y, hy, hyo⟩ := hhead hpos
    rw [hy] at hx
    rwa [← Option.some.inj hx]

/-- One level: either the test there fires, and rightly, or the child on the path decides. -/
theorem page_test {n count : Nat} {isleaf : Bool} {pad : Nat} {key : Nat → Nat}
    {child : Nat → BTPtr} (ho : o.base ≤ o.end_)
    (hg : Good true lo hi (n + 1) (.page count isleaf pad key child))
    (hchain : Chain Memsection.base Memsection.end_ (seg child 0 (count + 1)))
    (hproper : Proper Memsection.base Memsection.end_ (seg child 0 (count + 1))) :
    (refusal o (.page count isleaf pad key child) ≠ none ∧
      ¬ Passes o (seg child 0 (count + 1))) ∨
    ∃ h, insertIndex key o.base count 0 count = some h ∧ h ≤ count ∧
      (0 < h → key (h - 1) < o.base) ∧ ¬ (h < count ∧ btObjMatch o (key h) = true) ∧
      (Passes o (seg child 0 (count + 1)) ↔ Passes o (objs (child h))) := by
  cases hidx : insertIndex key o.base count 0 count with
  | none =>
    obtain ⟨i, hi, heq⟩ := insertIndex_none hidx
    refine Or.inl ⟨by simp [refusal, hidx], ?_⟩
    exact not_passes_of_key hg hchain hproper hi (le_of_eq heq.symm) (by omega)
  | some h =>
    obtain ⟨hh, hlt, hgt⟩ := insertIndex_some hidx
    by_cases hov : h < count ∧ btObjMatch o (key h) = true
    · have hm := hov.2
      simp only [btObjMatch, Bool.and_eq_true, decide_eq_true_eq] at hm
      refine Or.inl ⟨by simp [refusal, hidx, hov], ?_⟩
      exact not_passes_of_key hg hchain hproper hov.1 hm.1 hm.2
    · have hend : h < count → o.end_ < key h := by
        intro hlt'
        have hno : ¬ btObjMatch o (key h) = true := fun hm => hov ⟨hlt', hm⟩
        have := hgt hlt'
        simp only [btObjMatch, Bool.and_eq_true, decide_eq_true_eq] at hno
        omega
      exact Or.inr ⟨h, rfl, hh, hlt, hov, passes_child hg hchain hproper hh hlt hend⟩

/-- **The overlap tests.**  On a tree of disjoint intervals the tests along the path let
    an object through exactly when it is apart from all stored ones or swallows the
    first. -/
theorem refusal_eq_none_iff (ho : o.base ≤ o.end_) :
    ∀ (n : Nat) (t : BTPtr), Good true lo hi (n + 1) t →
      Chain Memsection.base Memsection.end_ (objs t) →
      Proper Memsection.base Memsection.end_ (objs t) →
      (refusal o t = none ↔ Passes o (objs t)) := by
  intro n
  induction n with
  | zero =>
    intro t hg hchain hproper
    obtain ⟨count, isleaf, pad, key, child, rfl⟩ := hg.page_eq
    obtain rfl : isleaf = true := hg.2.1
    rw [objs_page] at hchain hproper ⊢
    rcases page_test ho hg hchain hproper with ⟨h1, h2⟩ | ⟨h, hidx, hh, hlt, hov, hiff⟩
    · exact ⟨fun h => absurd h h1, fun h => absurd h h2⟩
    · obtain ⟨c, hc⟩ := (hg.2.2.1 h hh).1
      have hone : objs (child h) = [c] := by rw [hc]; rfl
      have hcp : c.base ≤ c.end_ :=
        hproper c (mem_seg.mpr ⟨h, by omega, by omega, by rw [hone]; exact List.mem_cons_self⟩)
      have hbefore : 0 < h → c.base < o.base := by
        intro hpos
        obtain ⟨x, hx, hxk⟩ := hg.2.2.2 (h - 1) (by omega) rfl
        rw [Nat.sub_add_cancel hpos, hone] at hx
        obtain rfl : c = x := Option.some.inj hx
        rw [hxk]
        exact hlt hpos
      rw [hiff, hone, ← not_iff_not, ← leaf_test_iff ho hcp hbefore]
      simp only [refusal, hidx, hc, if_neg hov, if_true]
      by_cases hfire : btObjMatch c o.base = true ∨ h = 0 ∧ btOverlaps o c = true
      · simp [hfire]
      · simp [hfire]
  | succ n ih =>
    intro t hg hchain hproper
    obtain ⟨count, isleaf, pad, key, child, rfl⟩ := hg.page_eq
    obtain rfl : isleaf = false := by rw [hg.2.1]; exact decide_eq_false (by omega)
    rw [objs_page] at hchain hproper ⊢
    rcases page_test ho hg hchain hproper with ⟨h1, h2⟩ | ⟨h, hidx, hh, -, hov, hiff⟩
    · exact ⟨fun h => absurd h h1, fun h => absurd h h2⟩
    · simp only [refusal, hidx, if_neg hov, Bool.false_eq_true, if_false]
      rw [hiff]
      rw [seg_window child hh] at hchain hproper
      refine ih (child h) (hg.2.2.1 h hh).1 (chain_append.mp (chain_append.mp hchain).1).2.1 ?_
      exact fun x hx => hproper x (List.mem_append_left _ (List.mem_append_right _ hx))

/-! ### One insertion into a tree of disjoint intervals -/

/-- The tree is well formed with the right keys, and holds disjoint intervals. -/
structure Kept (order lo : Nat) (t : BTreeS) : Prop where
  formed : Formed order true lo t
  chain : Chain Memsection.base Memsection.end_ (objs t.root)
  proper : Proper Memsection.base Memsection.end_ (objs t.root)

theorem kept_empty (order lo : Nat) : Kept order lo emptyTree :=
  ⟨Or.inl rfl, List.Pairwise.nil, fun _ hx => absurd hx List.not_mem_nil⟩

variable {order : Nat}

theorem Kept.refusal_iff {t : BTreeS} (h : Kept order lo t) (ho : o.base ≤ o.end_) :
    refusal o t.root = none ↔ Passes o (objs t.root) := by
  rcases h.formed with hnull | ⟨n, -, hg⟩
  · rw [hnull]
    exact ⟨fun _ => Or.inl fun x hx => absurd hx List.not_mem_nil, fun _ => rfl⟩
  · exact refusal_eq_none_iff ho n t.root hg h.chain h.proper

theorem Formed.shape {keyed : Bool} {t : BTreeS} (h : Formed order keyed lo t) :
    Formed order false lo t := by
  rcases h with hnull | ⟨n, hd, hg⟩
  · exact Or.inl hnull
  · exact Or.inr ⟨n, hd, hg.shape⟩

/-- A refused object leaves the tree as it was. -/
theorem objBTIns_of_refusal (hv : ValidOrder order) {keyed : Bool} {t : BTreeS} (hlo : lo ≤ minKey order)
    (hform : Formed order keyed lo t) (href : refusal o t.root ≠ none) (ngb : BTPtr)
    (pool : PagePool) : ∃ out, objBTIns order t o ngb pool = some out ∧ out.btree = t := by
  obtain ⟨out, hout, -, -, hstep⟩ :=
    objBTIns_spec hv hlo hform.shape (fun h => absurd h (by decide)) ngb pool
  refine ⟨out, hout, ?_⟩
  cases hstep with
  | refused s hrefusal hstatus htree => exact htree
  | stored hrefusal => exact absurd hrefusal href
  | starved hrefusal => exact absurd hrefusal href
  | rootless hrefusal => exact absurd hrefusal href

/-- An object apart from the stored ones is put in, when there are pages and no inner page
    is split in the middle. -/
theorem Kept.insert_clear (hv : ValidOrder order) (hlo : lo ≤ minKey order) {t : BTreeS}
    (h : Kept order lo t) (ho : o.base ≤ o.end_)
    (hclear : Clear Memsection.base Memsection.end_ o (objs t.root))
    (hmed : medianSplit order o t.root = false) (ngb : BTPtr) {pool : PagePool}
    (hpool : ∀ i, pool.grant i ≠ none) :
    ∃ out, objBTIns order t o ngb pool = some out ∧ Kept order lo out.btree ∧
      (objs out.btree.root).Perm (o :: objs t.root) ∧ out.pool.grant = pool.grant ∧
      out.status = .ok := by
  have hnone := (h.refusal_iff ho).mpr (Or.inl hclear)
  obtain ⟨out, hout, hgrant, hform, hstep⟩ := objBTIns_spec hv hlo h.formed
    (fun _ => ⟨h.chain.sorted h.proper, h.proper, hmed⟩) ngb pool
  refine ⟨out, hout, ?_⟩
  cases hstep with
  | refused s hrefusal hstatus htree =>
    rw [hnone] at hrefusal
    cases hrefusal
  | stored hrefusal hgranted hstatus hput =>
    have hins := hput.inserted
    exact ⟨⟨hform, hins.chain ho h.proper h.chain hclear, hins.proper ho h.proper⟩, hput.perm,
      hgrant, hstatus⟩
  | starved hrefusal hfail hneed hstatus =>
    obtain ⟨i, -, hfail⟩ := hfail
    exact absurd hfail (hpool _)
  | rootless hrefusal hgranted hneed hfail => exact absurd hfail (hpool _)

end

/-! ### Runs with overlapping objects -/

/-- The two objects have an address in common. -/
def Meets (x y : Memsection) : Prop :=
  ∃ a, (x.base ≤ a ∧ a ≤ x.end_) ∧ y.base ≤ a ∧ a ≤ y.end_

theorem meets_iff_not_apart {x y : Memsection} (hx : x.base ≤ x.end_) (hy : y.base ≤ y.end_) :
    Meets x y ↔ ¬ Apart Memsection.base Memsection.end_ x y := by
  constructor
  · rintro ⟨a, ⟨h1, h2⟩, h3, h4⟩ (h | h) <;> omega
  · intro h
    have h1 : y.base ≤ x.end_ := Nat.le_of_not_lt fun hlt => h (Or.inl hlt)
    have h2 : x.base ≤ y.end_ := Nat.le_of_not_lt fun hlt => h (Or.inr hlt)
    exact ⟨max x.base y.base, by omega, by omega⟩

theorem Kept.pairwise_not_meets {order lo : Nat} {t : BTreeS} (h : Kept order lo t) :
    (objs t.root).Pairwise fun x y => ¬ Meets x y := by
  refine List.Pairwise.imp_of_mem ?_ h.chain
  intro x y hx hy hlt hmeets
  exact (meets_iff_not_apart (h.proper x hx) (h.proper y hy)).mp hmeets (Or.inl hlt)

/-- An object that meets a stored one and does not swallow the first is refused. -/
theorem Kept.insert_meets {order lo : Nat} (hv : ValidOrder order) (hlo : lo ≤ minKey order)
    {t : BTreeS} (h : Kept order lo t) {o : Memsection} (ho : o.base ≤ o.end_)
    (hswallow : ¬ Swallows Memsection.base Memsection.end_ o (objs t.root))
    (hmeets : ∃ x ∈ objs t.root, Meets o x) (ngb : BTPtr) (pool : PagePool) :
    ∃ out, objBTIns order t o ngb pool = some out ∧ out.btree = t := by
  obtain ⟨x, hx, hm⟩ := hmeets
  refine objBTIns_of_refusal hv hlo h.formed (fun hnone => ?_) ngb pool
  rcases (h.refusal_iff ho).mp hnone with hclear | hs
  · exact (meets_iff_not_apart ho (h.proper x hx)).mp hm (hclear x hx)
  · exact hswallow hs

/-- What the overlap tests and the page split need of a call: the object does not reach
    over the leftmost stored one on both sides, and no inner page is split in the
    middle. -/
def Tame (order : Nat) (t : BTreeS) (o : Memsection) : Prop :=
  ¬ Swallows Memsection.base Memsection.end_ o (objs t.root) ∧
    medianSplit order o t.root = false

theorem Kept.insert_tame {order lo : Nat} (hv : ValidOrder order) (hlo : lo ≤ minKey order)
    {t : BTreeS} (h : Kept order lo t) {o : Memsection} (ho : o.base ≤ o.end_)
    (htame : Tame order t o) (ngb : BTPtr) {pool : PagePool} (hpool : ∀ i, pool.grant i ≠ none) :
    ∃ out, objBTIns order t o ngb pool = some out ∧ Kept order lo out.btree ∧
      ∀ i, out.pool.grant i ≠ none := by
  by_cases hclear : Clear Memsection.base Memsection.end_ o (objs t.root)
  · obtain ⟨out, hout, hk, -, hgrant, -⟩ := h.insert_clear hv hlo ho hclear htame.2 ngb hpool
    exact ⟨out, hout, hk, by rw [hgrant]; exact hpool⟩
  · have href : refusal o t.root ≠ none := by
      intro hnone
      rcases (h.refusal_iff ho).mp hnone with hc | hs
      · exact hclear hc
      · exact htame.1 hs
    obtain ⟨out, hout, htree⟩ := objBTIns_of_refusal hv hlo h.formed href ngb pool
    obtain ⟨out', hout', hgrant, -, -⟩ := objBTIns_spec hv hlo h.formed.shape
      (fun h => absurd h (by decide)) ngb pool
    obtain rfl : out = out' := Option.some.inj (hout.symm.trans hout')
    exact ⟨out, hout, htree ▸ h, by rw [hgrant]; exact hpool⟩

/-- **Overlap rejection.**  In every run of insertions of arbitrary intervals in which no
    object swallows the leftmost one and no inner page is split in the middle, the stored
    objects are pairwise disjoint after every call, and a further object that meets a
    stored one, and does not swallow the leftmost, leaves the tree exactly as it was. -/
theorem insertRun_disjoint {order : Nat} (hv : ValidOrder order) (os : List Memsection)
    (pool : PagePool) (hpool : ∀ i, pool.grant i ≠ none) (hos : ∀ o ∈ os, o.base ≤ o.end_)
    (htame : Along order (Tame order) os emptyTree pool) :
    ∃ t pool', insertRun order os emptyTree pool = some (t, pool') ∧
      ((objs t.root).Pairwise fun x y => ¬ Meets x y) ∧
      ∀ o, o.base ≤ o.end_ → ¬ Swallows Memsection.base Memsection.end_ o (objs t.root) →
        (∃ x ∈ objs t.root, Meets o x) →
        ∃ out, objBTIns order t o .null pool' = some out ∧ out.btree = t := by
  have hstep : ∀ (done : List Memsection) (t : BTreeS) (pool : PagePool) (o : Memsection),
      (Kept order 0 t ∧ ∀ i, pool.grant i ≠ none) → Tame order t o → o.base ≤ o.end_ →
      ∃ out, objBTIns order t o .null pool = some out ∧
        (Kept order 0 out.btree ∧ ∀ i, out.pool.grant i ≠ none) := by
    intro done t pool o hk ht ho
    exact hk.1.insert_tame hv (Nat.zero_le _) ho ht .null hk.2
  obtain ⟨t, pool', hrun, hk, -⟩ := insertRun_induction hstep os [] emptyTree pool
    ⟨kept_empty order 0, hpool⟩ htame fun p o s heq => hos o (by rw [heq]; simp)
  refine ⟨t, pool', hrun, hk.pairwise_not_meets, fun o ho hs hm => ?_⟩
  exact hk.insert_meets hv (Nat.zero_le _) ho hs hm .null pool'

instance (order : Nat) (t : BTreeS) (o : Memsection) : Decidable (Tame order t o) :=
  inferInstanceAs (Decidable (_ ∧ _))

theorem insertRun_disjoint_deployed :
    Along 255 (Tame 255) [⟨1, 30, 40⟩, ⟨2, 10, 20⟩, ⟨3, 15, 25⟩] emptyTree endlessPool ∧
    ∃ t pool', insertRun 255 [⟨1, 30, 40⟩, ⟨2, 10, 20⟩, ⟨3, 15, 25⟩] emptyTree endlessPool =
        some (t, pool') ∧
      ((objs t.root).Pairwise fun x y => ¬ Meets x y) ∧
      ∀ o, o.base ≤ o.end_ → ¬ Swallows Memsection.base Memsection.end_ o (objs t.root) →
        (∃ x ∈ objs t.root, Meets o x) →
        ∃ out, objBTIns 255 t o .null pool' = some out ∧ out.btree = t := by
  have htame : Along 255 (Tame 255) [⟨1, 30, 40⟩, ⟨2, 10, 20⟩, ⟨3, 15, 25⟩] emptyTree
      endlessPool :=
    along_cons rfl (by decide +kernel)
      (along_cons rfl (by decide +kernel) (along_cons rfl (by decide +kernel) trivial))
  exact ⟨htame, insertRun_disjoint deployed_order _ endlessPool endlessPool_grants (by decide) htame⟩

/-- The tree holds `[10, 20]`, and `[5, 30]` is stored next to it. -/
theorem swallowed_object_stored :
    ∃ t pool out, insertRun 255 [⟨1, 10, 20⟩] emptyTree endlessPool = some (t, pool) ∧
      objBTIns 255 t ⟨2, 5, 30⟩ .null pool = some out ∧
      (∃ x ∈ objs t.root, Meets ⟨2, 5, 30⟩ x) ∧ out.btree ≠ t ∧
      ¬ (objs out.btree.root).Pairwise fun x y => ¬ Meets x y := by
  refine ⟨_, _, _, rfl, rfl, ⟨⟨1, 10, 20⟩, by decide +kernel, 10, by decide, by decide⟩, ?_, ?_⟩
  · intro heq
    have hlen := congrArg (fun t : BTreeS => (objs t.root).length) heq
    exact absurd hlen (by decide +kernel)
  · have hobjs : ∀ xs : List Memsection, xs = [⟨2, 5, 30⟩, ⟨1, 10, 20⟩] →
        ¬ xs.Pairwise fun x y => ¬ Meets x y := by
      rintro xs rfl hpair
      exact (List.pairwise_cons.mp hpair).1 ⟨1, 10, 20⟩ List.mem_cons_self
        ⟨10, by decide, by decide⟩
    exact hobjs _ (by decide +kernel)

end FreeVMS.BTree
