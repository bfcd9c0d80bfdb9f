import FreeVMS.BTree.Representation

/-!
# Lookup

`ObjBTSearch` follows the separators to one object and compares only that one with the
key.  On a tree with the representation invariant this object is the last one whose base
is not above the key, so the comparison is enough, and an insertion adds the addresses of
the new object to what is found and changes nothing else.
-/

namespace FreeVMS.BTree

open IntervalList

section

variable {order lo hi : Nat}

/-- One level of the descent: the objects left of the child that is chosen have smaller
    bases than some object in it at or below `k`, those right of it have bases above `k`. -/
theorem search_sides {n count : Nat} {isleaf : Bool} {pad : Nat} {key : Nat → Nat}
    {child : Nat → BTPtr} (k : Nat)
    (hg : Good true lo hi (n + 1) (.page count isleaf pad key child))
    (hs : Sorted Memsection.base (seg child 0 (count + 1))) :
    ∃ h, searchIndex key k count 0 count = h ∧ h ≤ count ∧
      (∀ x ∈ seg child 0 h, ∃ y ∈ objs (child h), x.base < y.base ∧ y.base ≤ k) ∧
      ∀ x ∈ seg child (h + 1) (count - h), k < x.base := by
  obtain ⟨hh, hlt, hgt⟩ := searchIndex_spec key k count count 0 count (by omega) (by omega)
    (by omega) (by omega) (by omega)
  refine ⟨_, rfl, hh, ?_, ?_⟩
  · generalize searchIndex key k count 0 count = h at hh hlt hgt
    intro x hx
    have hpos : 0 < h := Nat.pos_of_ne_zero fun hz => by
      rw [hz, seg_zero] at hx
      cases hx
    obtain ⟨y, hy, hyk⟩ := hg.2.2.2 (h - 1) (by omega) rfl
    rw [Nat.sub_add_cancel hpos] at hy
    have hsep := (hg.separates hs (show h - 1 < count by omega)).1 x
      (by rwa [Nat.sub_add_cancel hpos])
    have := hlt hpos
    exact ⟨y, List.mem_of_mem_head? hy, by omega, by omega⟩
  · generalize searchIndex key k count 0 count = h at hh hlt hgt
    intro x hx
    by_cases hc : h = count
    · rw [hc, Nat.sub_self, seg_zero] at hx
      cases hx
    · have hsep := (hg.separates hs (show h < count by omega)).2 x hx
      rcases hgt (by omega) with h1 | ⟨hpos, heq⟩
      · omega
      · -- the early exit on equality: the next key is larger
        have := hg.keys_lt hs (show h - 1 < h by omega) (by omega)
        omega

/-- The object the descent ends at is the last one whose base is not above the key. -/
theorem searchPage_spec (k : Nat) :
    ∀ (n : Nat) (t : BTPtr), Good true lo hi (n + 1) t → Sorted Memsection.base (objs t) →
      ∃ o, searchPage k t = some o ∧ o ∈ objs t ∧
        ∀ x ∈ objs t, x.base ≤ k → o.base ≤ k ∧ x.base ≤ o.base := by
  -- what a child found is also right for the whole page
  have hlift : ∀ (n count : Nat) (isleaf : Bool) (pad : Nat) (key : Nat → Nat)
      (child : Nat → BTPtr) (o : Memsection),
      Good true lo hi (n + 1) (.page count isleaf pad key child) →
      Sorted Memsection.base (seg child 0 (count + 1)) →
      o ∈ objs (child (searchIndex key k count 0 count)) →
      (∀ x ∈ objs (child (searchIndex key k count 0 count)), x.base ≤ k →
        o.base ≤ k ∧ x.base ≤ o.base) →
      o ∈ seg child 0 (count + 1) ∧
        ∀ x ∈ seg child 0 (count + 1), x.base ≤ k → o.base ≤ k ∧ x.base ≤ o.base := by
    intro n count isleaf pad key child o hg hs hmem hlast
    obtain ⟨h, rfl, hh, hleft, hright⟩ := search_sides k hg hs
    rw [seg_window child hh]
    refine ⟨List.mem_append_left _ (List.mem_append_right _ hmem), fun x hx hxk => ?_⟩
    rcases List.mem_append.mp hx with hx | hx
    · rcases List.mem_append.mp hx with hx | hx
      · obtain ⟨y, hy, hxy, hyk⟩ := hleft x hx
        have := hlast y hy hyk
        exact ⟨this.1, by omega⟩
      · exact hlast x hx hxk
    · have := hright x hx
      omega
  intro n
  induction n with
  | zero =>
    intro t hg hs
    obtain ⟨count, isleaf, pad, key, child, rfl⟩ := hg.page_eq
    obtain rfl : isleaf = true := hg.2.1
    rw [objs_page] at hs ⊢
    obtain ⟨h, hidx, hh, -, -⟩ := search_sides k hg hs
    obtain ⟨c, hc⟩ := (hg.2.2.1 h hh).1
    refine ⟨c, by simp only [searchPage, hidx, hc, if_true], ?_⟩
    refine hlift 0 count true pad key child c hg hs ?_ ?_
    · rw [hidx, hc]
      exact List.mem_cons_self
    · intro x hx hxk
      rw [hidx, hc] at hx
      obtain rfl := List.mem_singleton.mp hx
      exact ⟨hxk, Nat.le_refl _⟩
  | succ n ih =>
    intro t hg hs
    obtain ⟨count, isleaf, pad, key, child, rfl⟩ := hg.page_eq
    obtain rfl : isleaf = false := by rw [hg.2.1]; exact decide_eq_false (by omega)
    rw [objs_page] at hs ⊢
    obtain ⟨h, hidx, hh, -, -⟩ := search_sides k hg hs
    have hs' : Sorted Memsection.base (objs (child h)) := by
      rw [seg_window child hh] at hs
      exact (sorted_append.mp (sorted_append.mp hs).1).2.1
    obtain ⟨o, ho, hmem, hlast⟩ := ih (child h) (hg.2.2.1 h hh).1 hs'
    refine ⟨o, ?_, ?_⟩
    · simp only [searchPage, hidx, Bool.false_eq_true, if_false]
      exact ho
    · exact hlift (n + 1) count false pad key child o hg hs (by rwa [hidx]) (by rwa [hidx])

/-- The search ends at some object of the tree. -/
theorem searchPage_mem {keyed : Bool} (k : Nat) : ∀ (n : Nat) (t : BTPtr),
    Good keyed lo hi (n + 1) t → ∃ o, searchPage k t = some o ∧ o ∈ objs t := by
  intro n
  induction n with
  | zero =>
    intro t hg
    obtain ⟨count, isleaf, pad, key, child, rfl⟩ := hg.page_eq
    obtain rfl : isleaf = true := hg.2.1
    obtain ⟨hh, -⟩ := searchIndex_spec key k count count 0 count (by omega) (by omega) (by omega)
      (by omega) (by omega)
    obtain ⟨c, hc⟩ := (hg.2.2.1 _ hh).1
    refine ⟨c, by simp only [searchPage, hc, if_true], ?_⟩
    rw [objs_page]
    exact mem_seg.mpr ⟨searchIndex key k count 0 count, by omega, by omega,
      by rw [hc]; exact List.mem_cons_self⟩
  | succ n ih =>
    intro t hg
    obtain ⟨count, isleaf, pad, key, child, rfl⟩ := hg.page_eq
    obtain rfl : isleaf = false := by rw [hg.2.1]; exact decide_eq_false (by omega)
    obtain ⟨hh, -⟩ := searchIndex_spec key k count count 0 count (by omega) (by omega) (by omega)
      (by omega) (by omega)
    obtain ⟨o, ho, hmem⟩ := ih _ (hg.2.2.1 _ hh).1
    refine ⟨o, ?_, ?_⟩
    · simp only [searchPage, Bool.false_eq_true, if_false]
      exact ho
    · rw [objs_page]
      exact mem_seg.mpr ⟨searchIndex key k count 0 count, by omega, by omega, hmem⟩

/-- The search returned object `o` with `BT_OK`. -/
def Found (t : BTreeS) (k : Nat) (o : Memsection) : Prop :=
  objBTSearch (some t) k = some (.ok, some o)

/-- The address lies in the object. -/
def Memsection.Contains (o : Memsection) (k : Nat) : Prop := o.base ≤ k ∧ k ≤ o.end_

theorem btObjMatch_iff (o : Memsection) (k : Nat) : btObjMatch o k = true ↔ o.Contains k := by
  simp [btObjMatch, Memsection.Contains]

/-- What is found is in the tree, whatever the keys. -/
theorem Found.mem {keyed : Bool} {t : BTreeS} {k : Nat} {o : Memsection} (h : Found t k o)
    (hform : Formed order keyed lo t) : o ∈ objs t.root := by
  obtain ⟨depth, root⟩ := t
  rcases hform with hnull | ⟨n, -, hg⟩
  · obtain rfl : root = .null := hnull
    simp [Found, objBTSearch] at h
  · obtain ⟨x, hx, hmem⟩ := searchPage_mem k n root hg
    obtain ⟨count, isleaf, pad, key, child, heq⟩ := Good.page_eq hg
    obtain rfl : root = .page count isleaf pad key child := heq
    simp only [Found, objBTSearch, hx, Option.some.injEq, Prod.mk.injEq] at h
    exact h.2 ▸ hmem

/-- The search always ends, with `BT_OK` and the stored object that contains the address or
    with `BT_NOT_FOUND`. -/
theorem Kept.search {t : BTreeS} (h : Kept order lo t) (k : Nat) :
    ∃ status obj, objBTSearch (some t) k = some (status, obj) ∧
      (status = .ok ∨ status = .notFound) ∧
      (∀ o, Found t k o ↔ o ∈ objs t.root ∧ o.Contains k) ∧
      (status = .notFound ↔ ¬ ∃ o ∈ objs t.root, o.Contains k) := by
  obtain ⟨depth, root⟩ := t
  rcases h.formed with hnull | ⟨n, -, hg⟩
  · obtain rfl : root = .null := hnull
    refine ⟨.notFound, none, rfl, Or.inr rfl, fun o => ?_, ?_⟩
    · simp [Found, objBTSearch, objs]
    · simp [objs]
  · obtain ⟨count, isleaf, pad, key, child, heq⟩ := Good.page_eq hg
    obtain rfl : root = .page count isleaf pad key child := heq
    obtain ⟨o, ho, hmem, hlast⟩ := searchPage_spec k n _ hg (h.chain.sorted h.proper)
    have hrun : objBTSearch (some ⟨depth, .page count isleaf pad key child⟩) k =
        some (if btObjMatch o k then .ok else .notFound, some o) := by
      simp only [objBTSearch]
      rw [ho]
    -- any object that contains the address is the one the search ended at
    have huniq : ∀ x ∈ objs (.page count isleaf pad key child), x.Contains k → x = o := by
      intro x hx hxk
      obtain ⟨h1, h2⟩ := hlast x hx hxk.1
      have hpx := hxk.2
      rcases Nat.lt_or_ge k o.base with hlt | hge
      · omega
      · by_cases hin : k ≤ o.end_
        · exact h.chain.eq_of_mem hx hmem hxk ⟨hge, hin⟩
        · -- `o` begins inside `x` and ends before `k`: its base is common to both
          exact h.chain.eq_of_mem hx hmem ⟨h2, Nat.le_trans h1 hpx⟩
            ⟨Nat.le_refl _, h.proper o hmem⟩
    by_cases hmatch : o.Contains k
    · have hb := (btObjMatch_iff o k).mpr hmatch
      rw [if_pos hb] at hrun
      refine ⟨_, _, hrun, Or.inl rfl, fun x => ?_, ?_⟩
      · rw [Found, hrun]
        constructor
        · intro heq
          obtain rfl : o = x := by simpa using heq
          exact ⟨hmem, hmatch⟩
        · rintro ⟨hx, hxk⟩
          rw [huniq x hx hxk]
      · constructor
        · intro heq
          cases heq
        · exact fun hno => absurd ⟨o, hmem, hmatch⟩ hno
    · have hb : ¬ btObjMatch o k = true := fun hm => hmatch ((btObjMatch_iff o k).mp hm)
      rw [if_neg hb] at hrun
      have hno : ¬ ∃ x ∈ objs (.page count isleaf pad key child), x.Contains k := by
        rintro ⟨x, hx, hxk⟩
        exact hmatch (huniq x hx hxk ▸ hxk)
      refine ⟨_, _, hrun, Or.inr rfl, fun x => ?_, ?_⟩
      · rw [Found, hrun]
        constructor
        · intro heq
          simp at heq
        · exact fun hx => absurd ⟨x, hx⟩ hno
      · exact ⟨fun _ => hno, fun _ => rfl⟩

theorem Kept.found_iff {t : BTreeS} (h : Kept order lo t) (k : Nat) (o : Memsection) :
    Found t k o ↔ o ∈ objs t.root ∧ o.Contains k := by
  obtain ⟨-, -, -, -, hfound, -⟩ := h.search k
  exact hfound o

end

/-! ### Lookup after an insertion -/

/-- The root of the tree once `BTInsert` has returned: `ObjBTIns` puts a new page over the
    two halves of a split one. -/
def BTOut.root (out : BTOut) (newroot : BTPage) : BTPtr :=
  match out.result with
  | .promotion k p => (growRoot newroot k out.current p).ptr
  | _ => out.current

theorem medianSplit_of_innerSplit {order : Nat} {o : Memsection} :
    ∀ {t : BTPtr}, innerSplit order o t = false → medianSplit order o t = false := by
  intro t
  induction t with
  | null => exact fun _ => rfl
  | obj c => exact fun _ => rfl
  | page count isleaf pad key child ih =>
    intro h
    rw [innerSplit] at h
    rw [medianSplit]
    cases hidx : insertIndex key o.base count 0 count with
    | none => simp
    | some hi =>
      simp only [hidx, Bool.and_eq_false_iff, Bool.or_eq_false_iff] at h ⊢
      rcases h with h | ⟨h1, h2⟩
      · exact Or.inl h
      · exact Or.inr ⟨Or.inl h1, ih hi h2⟩

/-- Each child has at least `k` objects. -/
theorem seg_length_ge {child : Nat → BTPtr} {k : Nat} :
    ∀ (n a : Nat), (∀ i < n, k ≤ (objs (child (a + i))).length) →
      n * k ≤ (seg child a n).length := by
  intro n
  induction n with
  | zero => exact fun a _ => by simp
  | succ n ih =>
    intro a h
    have hfirst := ih a fun i hi => h i (Nat.lt_succ_of_lt hi)
    have hlast := h n (Nat.lt_succ_self n)
    rw [seg_add, seg_one, List.length_append, Nat.succ_mul]
    omega

/-- A page has an object for each child. -/
theorem Good.keys_lt_length {keyed : Bool} {lo hi n : Nat} {t : BTPtr}
    (h : Good keyed lo hi (n + 1) t) : t.keys < (objs t).length := by
  obtain ⟨count, isleaf, pad, key, child, rfl⟩ := h.page_eq
  have hone : ∀ i < count + 1, 1 ≤ (objs (child (0 + i))).length := by
    intro i hi
    rw [Nat.zero_add]
    exact List.length_pos_iff.mpr (h.2.2.1 i (Nat.le_of_lt_succ hi)).1.objs_ne_nil
  have hle := seg_length_ge (count + 1) 0 hone
  rw [objs_page]
  show count < _
  omega

/-- Only a tree with that many objects has a full inner page. -/
theorem Good.medianSplit_length {order : Nat} {keyed : Bool} {lo : Nat} {o : Memsection} :
    ∀ (n : Nat) (t : BTPtr), Good keyed lo (maxKey order) (n + 1) t → 0 < order →
      medianSplit order o t = true → order * (lo + 1) ≤ (objs t).length := by
  intro n
  induction n with
  | zero =>
    intro t hg _ hsplit
    obtain ⟨count, isleaf, pad, key, child, rfl⟩ := hg.page_eq
    obtain rfl : isleaf = true := hg.2.1
    simp [medianSplit] at hsplit
  | succ n ih =>
    intro t hg hpos hsplit
    obtain ⟨count, isleaf, pad, key, child, rfl⟩ := hg.page_eq
    rw [medianSplit] at hsplit
    cases hidx : insertIndex key o.base count 0 count with
    | none => simp [hidx] at hsplit
    | some h =>
      obtain ⟨hle, -, -⟩ := insertIndex_some hidx
      rw [objs_page]
      simp only [hidx, Bool.and_eq_true, Bool.or_eq_true, Bool.not_eq_true', decide_eq_false_iff_not] at hsplit
      rcases hsplit.2 with ⟨⟨hfull, -⟩, -⟩ | hbelow
      · -- the page is full, and its children are pages with `lo` keys or more
        have hchildren : ∀ i < count + 1, lo + 1 ≤ (objs (child (0 + i))).length := by
          intro i hi
          obtain ⟨hgood, hkeys⟩ := hg.2.2.1 i (Nat.le_of_lt_succ hi)
          have hlt := hgood.keys_lt_length
          have hlo := hkeys (Nat.succ_ne_zero n)
          rw [Nat.zero_add]
          omega
        have hcount : order ≤ count + 1 := by
          simp only [maxKey] at hfull
          omega
        exact (Nat.mul_le_mul_right _ hcount).trans (seg_length_ge (count + 1) 0 hchildren)
      · have hchild := ih (child h) (hg.2.2.1 h hle).1 hpos hbelow
        rw [seg_window child hle, List.length_append, List.length_append]
        omega

/-- A tree with few objects does not split an inner page. -/
theorem Kept.medianSplit_of_few {order lo : Nat} {t : BTreeS} (h : Kept order lo t) (hpos : 0 < order)
    (hfew : (objs t.root).length < order * (lo + 1)) (o : Memsection) :
    medianSplit order o t.root = false := by
  rcases h.formed with hnull | ⟨n, -, hg⟩
  · rw [hnull]
    rfl
  · refine Bool.eq_false_iff.mpr fun hsplit => ?_
    have := hg.medianSplit_length n t.root hpos hsplit
    omega

/-- `BTInsert` on a tree with pages, when no inner page has to be split: the object is put in,
    or a page is missing and nothing has changed. -/
theorem Kept.btInsert_clear {order lo : Nat} (hv : ValidOrder order) (hlo : lo ≤ minKey order)
    {t : BTreeS} (h : Kept order lo t) (hroot : t.root ≠ .null) {o : Memsection}
    (ho : o.base ≤ o.end_) (hclear : Clear Memsection.base Memsection.end_ o (objs t.root))
    (hinner : innerSplit order o t.root = false) (ngb : BTPtr) (pool : PagePool) :
    ∃ out, btInsert order o t.root ngb pool = some out ∧
      (out.result.status = .allocFail ∧ out.current = t.root ∧ (∃ i, pool.grant i = none) ∨
        ∀ newroot, ∃ d, Kept order lo ⟨d, out.root newroot⟩ ∧
          (objs (out.root newroot)).Perm (o :: objs t.root)) := by
  rcases h.formed with hnull | ⟨n, -, hg⟩
  · exact absurd hnull hroot
  have hnone := (h.refusal_iff ho).mpr (Or.inl hclear)
  have hkeep : ∀ {d m : Nat} {root : BTPtr}, Good true lo (maxKey order) (m + 1) root →
      d = m + 1 → PutIn true o (objs t.root) (objs root) → Kept order lo ⟨d, root⟩ := by
    intro d m root hroot hd hput
    have hins := hput.inserted
    exact ⟨Or.inr ⟨m, hd, hroot⟩, hins.chain ho h.proper h.chain hclear,
      hins.proper ho h.proper⟩
  obtain ⟨out, hout, -, hpost⟩ := btInsert_spec hv hlo n t.root hg
    (fun _ => ⟨h.chain.sorted h.proper, h.proper, medianSplit_of_innerSplit hinner⟩) ngb pool
  refine ⟨out, hout, ?_⟩
  cases hres : out.result with
  | refused s =>
    simp only [hres] at hpost
    rcases hpost with ⟨h1, -, -⟩ | ⟨-, rfl, ⟨i, -, hfail⟩, -, -, -, hsame⟩
    · rw [hnone] at h1
      cases h1
    · exact Or.inl ⟨rfl, hsame hinner, _, hfail⟩
  | ok =>
    simp only [hres] at hpost
    obtain ⟨-, -, hgood, hput, -⟩ := hpost
    refine Or.inr fun newroot => ⟨n + 1, ?_⟩
    have hr : out.root newroot = out.current := by rw [BTOut.root, hres]
    rw [hr]
    exact ⟨hkeep hgood rfl hput, hput.perm⟩
  | promotion k p =>
    simp only [hres] at hpost
    obtain ⟨-, -, hgood, hgoodp, hput, hkey, hkeys, hkeysp, -⟩ := hpost
    refine Or.inr fun newroot => ⟨n + 2, ?_⟩
    have hr : out.root newroot = (growRoot newroot k out.current p).ptr := by
      rw [BTOut.root, hres]
    rw [hr]
    rw [← growRoot_objs newroot k] at hput
    exact ⟨hkeep (growRoot_good hv hgood hgoodp (by omega) (by omega) hkey) rfl hput, hput.perm⟩

/-- A tree with the representation invariant: no pages, or pages with the right keys in
    which `child[i]<key[i]<=child[i+1]` also holds for the first object of a leaf. -/
def RepTree (order : Nat) (t : BTreeS) : Prop :=
  t.root = .null ∨ ∃ n, Rep order 0 (n + 1) t.root ∧ LeafOrdered (n + 1) t.root

theorem RepTree.kept {order : Nat} {t : BTreeS} (hrep : RepTree order t)
    (hdisj : (objs t.root).Pairwise fun x y => ¬ Meets x y)
    (hproper : Proper Memsection.base Memsection.end_ (objs t.root)) :
    ∃ d, Kept order 0 ⟨d, t.root⟩ := by
  rcases hrep with hnull | ⟨n, hrep, hord⟩
  · refine ⟨0, Or.inl hnull, ?_, hproper⟩
    show Chain _ _ (objs t.root)
    rw [hnull]
    exact List.Pairwise.nil
  · obtain ⟨hg, hsort⟩ := (rep_iff (n + 1) t.root).mp ⟨hrep, hord⟩
    refine ⟨n + 1, Or.inr ⟨n, rfl, hg⟩, ?_, hproper⟩
    refine List.Pairwise.imp_of_mem ?_ (List.pairwise_and_iff.mpr ⟨hsort, hdisj⟩)
    intro x y hx hy hxy
    have hpx := hproper x hx
    have hpy := hproper y hy
    rcases Classical.not_not.mp (mt (meets_iff_not_apart hpx hpy).mpr hxy.2) with h | h
    · exact h
    · have := hxy.1
      omega

/-- **Lookup.**  On every tree with the representation invariant that holds disjoint
    intervals, the search ends for every address, with the stored object that contains it or
    with `BT_NOT_FOUND`; and `BTInsert` of an object apart from the stored ones, when no
    inner page has to be split, makes the addresses of that object found and no others,
    unless a page is missing, when it changes nothing. -/
theorem objBTSearch_exact {order : Nat} (hv : ValidOrder order) {t : BTreeS}
    (hrep : RepTree order t) (hdisj : (objs t.root).Pairwise fun x y => ¬ Meets x y)
    (hproper : Proper Memsection.base Memsection.end_ (objs t.root)) :
    (∀ k, ∃ status obj, objBTSearch (some t) k = some (status, obj) ∧
      (∀ o, status = .ok ∧ obj = some o ↔ o ∈ objs t.root ∧ o.Contains k) ∧
      (status = .notFound ↔ ¬ ∃ o ∈ objs t.root, o.Contains k)) ∧
    ∀ (o : Memsection) (ngb : BTPtr) (pool : PagePool), o.base ≤ o.end_ →
      (∀ x ∈ objs t.root, ¬ Meets o x) → innerSplit order o t.root = false → t.root ≠ .null →
      ∃ out, btInsert order o t.root ngb pool = some out ∧
        (out.result.status = .allocFail ∧ out.current = t.root ∧ (∃ i, pool.grant i = none) ∨
          ∀ newroot d k x, Found ⟨d, out.root newroot⟩ k x ↔
            Found t k x ∨ x = o ∧ o.Contains k) := by
  obtain ⟨d, hk⟩ := hrep.kept hdisj hproper
  constructor
  · intro k
    obtain ⟨status, obj, hrun, -, hfound, hnot⟩ := hk.search k
    refine ⟨status, obj, hrun, fun o => ?_, hnot⟩
    rw [← hfound o, Found, hrun]
    simp
  · intro o ngb pool ho hclear hinner hroot
    have hclear' : Clear Memsection.base Memsection.end_ o (objs t.root) := fun x hx =>
      Classical.not_not.mp (mt (meets_iff_not_apart ho (hproper x hx)).mpr (hclear x hx))
    obtain ⟨out, hout, hres⟩ := hk.btInsert_clear hv (Nat.zero_le _) hroot ho hclear' hinner
      ngb pool
    refine ⟨out, hout, ?_⟩
    rcases hres with hfail | hkept
    · exact Or.inl hfail
    · refine Or.inr fun newroot d' k x => ?_
      obtain ⟨d'', hk', hperm⟩ := hkept newroot
      have hafter : Found ⟨d', out.root newroot⟩ k x ↔
          x ∈ objs (out.root newroot) ∧ x.Contains k := hk'.found_iff k x
      have hbefore : Found t k x ↔ x ∈ objs t.root ∧ x.Contains k := hk.found_iff k x
      rw [hafter, hbefore, hperm.mem_iff, List.mem_cons, or_and_right, or_comm]
      refine or_congr Iff.rfl ⟨?_, ?_⟩
      · rintro ⟨rfl, hx⟩
        exact ⟨rfl, hx⟩
      · rintro ⟨rfl, hx⟩
        exact ⟨rfl, hx⟩

/-- A leaf with the objects `[10, 20]` and `[30, 40]`. -/
def pairLeaf : BTreeS :=
  { depth := 1
    root := .page 1 true 0 (fun _ => 30) fun i => if i = 0 then .obj ⟨1, 10, 20⟩ else .obj ⟨2, 30, 40⟩ }

theorem pairLeaf_exact :
    RepTree 255 pairLeaf ∧
    (∀ k, ∃ status obj, objBTSearch (some pairLeaf) k = some (status, obj) ∧
      (∀ o, status = .ok ∧ obj = some o ↔ o ∈ objs pairLeaf.root ∧ o.Contains k) ∧
      (status = .notFound ↔ ¬ ∃ o ∈ objs pairLeaf.root, o.Contains k)) ∧
    ∀ (o : Memsection) (ngb : BTPtr) (pool : PagePool), o.base ≤ o.end_ →
      (∀ x ∈ objs pairLeaf.root, ¬ Meets o x) → innerSplit 255 o pairLeaf.root = false →
      pairLeaf.root ≠ .null →
      ∃ out, btInsert 255 o pairLeaf.root ngb pool = some out ∧
        (out.result.status = .allocFail ∧ out.current = pairLeaf.root ∧
            (∃ i, pool.grant i = none) ∨
          ∀ newroot d k x, Found ⟨d, out.root newroot⟩ k x ↔
            Found pairLeaf k x ∨ x = o ∧ o.Contains k) := by
  have hobjs : objs pairLeaf.root = [⟨1, 10, 20⟩, ⟨2, 30, 40⟩] := by decide
  have hkept : Good true 0 (maxKey 255) 1 pairLeaf.root := by
    refine ⟨by decide, rfl, fun i _ => ⟨?_, fun h => absurd rfl h⟩, fun i hi _ => ?_⟩
    · by_cases hz : i = 0
      · exact ⟨⟨1, 10, 20⟩, by simp [hz]⟩
      · exact ⟨⟨2, 30, 40⟩, by simp [hz]⟩
    · exact ⟨⟨2, 30, 40⟩, rfl, rfl⟩
  have hrep : RepTree 255 pairLeaf :=
    Or.inr ⟨0, (rep_iff 1 _).mpr ⟨hkept, by rw [hobjs]; unfold Sorted; decide⟩⟩
  refine ⟨hrep, objBTSearch_exact deployed_order hrep ?_ ?_⟩
  · rw [hobjs]
    refine List.pairwise_pair.mpr ?_
    rintro ⟨a, ⟨h1, h2⟩, h3, h4⟩
    exact absurd (Nat.le_trans h3 h2) (by decide)
  · rw [hobjs]
    unfold Proper
    decide

/-- A leaf whose keys are in order and are the bases of the objects to their right, but whose
    first object lies above them. -/
def strayLeaf : BTreeS :=
  { depth := 1
    root := .page 1 true 0 (fun _ => 10) fun i => if i = 0 then .obj ⟨1, 100, 110⟩ else .obj ⟨2, 10, 20⟩ }

/-- The keys of a leaf say nothing about its first object: `strayLeaf` satisfies every other
    condition and holds `[100, 110]`, and the search for `105` does not find it. -/
theorem strayLeaf_not_found :
    Rep 255 0 1 strayLeaf.root ∧ ((objs strayLeaf.root).Pairwise fun x y => ¬ Meets x y) ∧
    Proper Memsection.base Memsection.end_ (objs strayLeaf.root) ∧
    (∃ o ∈ objs strayLeaf.root, o.Contains 105) ∧
    objBTSearch (some strayLeaf) 105 = some (.notFound, some ⟨2, 10, 20⟩) := by
  have hobjs : objs strayLeaf.root = [⟨1, 100, 110⟩, ⟨2, 10, 20⟩] := by decide
  refine ⟨⟨by decide, rfl, ?_, fun i _ => ⟨?_, fun h => absurd rfl h⟩, fun i hi => ?_⟩, ?_, ?_,
    ?_, rfl⟩
  · intro i j hij hj
    omega
  · by_cases hz : i = 0
    · exact ⟨⟨1, 100, 110⟩, by simp [hz]⟩
    · exact ⟨⟨2, 10, 20⟩, by simp [hz]⟩
  · exact ⟨⟨2, 10, 20⟩, rfl, rfl⟩
  · rw [hobjs]
    refine List.pairwise_pair.mpr ?_
    rintro ⟨a, ⟨h1, h2⟩, h3, h4⟩
    exact absurd (Nat.le_trans h1 h4) (by decide)
  · rw [hobjs]
    unfold Proper
    decide
  · exact ⟨⟨1, 100, 110⟩, by rw [hobjs]; exact List.mem_cons_self, by decide, by decide⟩

end FreeVMS.BTree
