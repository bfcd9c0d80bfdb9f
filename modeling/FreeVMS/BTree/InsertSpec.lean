import FreeVMS.BTree.Invariant

/-!
# What one insertion does to a page

One statement per function: `btPlace_spec` for the end of `BTInsert`, where an entry
goes into a page or splits it, and `btInsert_spec` for the recursion.  Both say what
the page is afterwards, level by level, in terms of `Good` and `objs`.
-/

namespace FreeVMS.BTree

open IntervalList

/-- `ys` is `xs` with `o` put in somewhere, and at its place by base if `keyed`. -/
def PutIn (keyed : Bool) (o : Memsection) (xs ys : List Memsection) : Prop :=
  ∃ p s, xs = p ++ s ∧ ys = p ++ o :: s ∧
    (keyed = true → (∀ a ∈ p, a.base < o.base) ∧ ∀ b ∈ s, o.base < b.base)

/-- If the first object of the old tree is smaller than `o`, it is also the first of
    the new one. -/
def HeadKept (keyed : Bool) (o : Memsection) (t t' : BTPtr) : Prop :=
  keyed = true → ∀ x, (objs t).head? = some x → x.base < o.base → (objs t').head? = some x

theorem PutIn.inserted {o : Memsection} {xs ys : List Memsection} (h : PutIn true o xs ys) :
    Inserted Memsection.base o xs ys := by
  obtain ⟨p, s, hx, hy, hk⟩ := h
  exact ⟨p, s, hx, hy, (hk rfl).1, (hk rfl).2⟩

theorem PutIn.perm {keyed : Bool} {o : Memsection} {xs ys : List Memsection}
    (h : PutIn keyed o xs ys) : ys.Perm (o :: xs) := by
  obtain ⟨p, s, rfl, rfl, -⟩ := h
  exact List.perm_middle

/-- Putting in through a window of the list. -/
theorem PutIn.window {keyed : Bool} {o : Memsection} {m m' : List Memsection}
    (h : PutIn keyed o m m') {a b : List Memsection}
    (ha : keyed = true → ∀ x ∈ a, x.base < o.base)
    (hb : keyed = true → ∀ x ∈ b, o.base < x.base) :
    PutIn keyed o (a ++ m ++ b) (a ++ m' ++ b) := by
  obtain ⟨p, s, rfl, rfl, hk⟩ := h
  refine ⟨a ++ p, s ++ b, by simp, by simp, fun hkey => ⟨fun x hx => ?_, fun x hx => ?_⟩⟩
  · rcases List.mem_append.mp hx with hx | hx
    · exact ha hkey x hx
    · exact (hk hkey).1 x hx
  · rcases List.mem_append.mp hx with hx | hx
    · exact (hk hkey).2 x hx
    · exact hb hkey x hx

/-! ### Placing an entry in a page -/

section Place

variable {order : Nat} {keyed : Bool} {lo : Nat}

/-- A page that holds the entries of `key` and `child` from `d` on is good when these
    are. -/
theorem good_of_entries {n m : Nat} {q : BTPage} (d : Nat) (key : Nat → Nat)
    (child : Nat → BTPtr) (hq : q.count = m) (hm : m ≤ maxKey order) (hleaf : q.isleaf = decide (n = 0))
    (hchild : ∀ i ≤ m, q.child i = child (d + i))
    (hgood : ∀ i ≤ m, Good keyed lo (maxKey order) n (child (d + i)) ∧
      (n ≠ 0 → lo ≤ (child (d + i)).keys))
    (hkey : ∀ i < m, q.key i = key (d + i))
    (hok : ∀ i < m, KeyOk keyed (key (d + i)) (child (d + i + 1))) :
    Good keyed lo (maxKey order) (n + 1) q.ptr ∧ objs q.ptr = seg child d (m + 1) := by
  constructor
  · refine ⟨by rw [hq]; exact hm, hleaf, ?_, ?_⟩
    · intro i hi
      rw [hq] at hi
      rw [hchild i hi]
      exact hgood i hi
    · intro i hi
      rw [hq] at hi
      rw [hkey i hi, hchild (i + 1) (by omega)]
      exact hok i hi
  · show objs (.page q.count q.isleaf q.pad q.key q.child) = _
    rw [objs_page, hq]
    apply seg_congr
    intro i hi
    rw [Nat.zero_add]
    exact hchild i (by omega)

/-- What `btPlace` leaves behind: `child` are the children of the page with the new one
    put in. -/
def PlacePost (order : Nat) (keyed : Bool) (lo n : Nat) (current : BTPage) (pool : PagePool)
    (child : Nat → BTPtr) (out : BTOut) : Prop :=
  out.pool.grant = pool.grant ∧
  match out.result with
  | .refused s =>
      s = .allocFail ∧ maxKey order ≤ current.count ∧ out.current = current.ptr ∧
        pool.grant pool.asked = none
  | .ok =>
      current.count < maxKey order ∧ Good keyed lo (maxKey order) (n + 1) out.current ∧
        objs out.current = seg child 0 (current.count + 2) ∧
        out.current.keys = current.count + 1 ∧ out.pool.asked = pool.asked
  | .promotion k p =>
      maxKey order ≤ current.count ∧ Good keyed lo (maxKey order) (n + 1) out.current ∧
        Good keyed lo (maxKey order) (n + 1) p ∧
        objs out.current ++ objs p = seg child 0 (current.count + 2) ∧
        objs out.current = seg child 0 (minKey order + 1) ∧
        KeyOk keyed k p ∧ out.current.keys = minKey order ∧ p.keys = minKey order ∧
        pool.grant pool.asked ≠ none ∧ out.pool.asked = pool.asked + 1

/-- Behind the place of the new child. -/
theorem insChild_behind (child : Nat → BTPtr) (p : BTPtr) {hi : Int} {i : Nat} (h : hi < i) :
    insChild child hi p (i + 1) = child i := by
  rw [insChild, if_neg (by omega), if_neg (by omega)]
  rfl

/-- The child right of the middle, out of which `BTInsertPage` reads the key when the new entry is
    put in the middle. -/
theorem middle_key {n : Nat} {child : Nat → BTPtr} {hi : Int} {p : BTPtr}
    (hgood : Good keyed lo (maxKey order) n (insChild child hi p (minKey order + 2)))
    (hmedian : keyed = true → n ≠ 0 → hi ≠ minKey order) :
    ∃ km, hi = minKey order → btGetObjKey (child (minKey order + 1)) = some km ∧
      KeyOk keyed km (child (minKey order + 1)) := by
  by_cases heq : hi = minKey order
  · rw [insChild_behind child p (by omega)] at hgood
    cases n with
    | zero =>
      obtain ⟨x, hx⟩ := hgood
      refine ⟨x.base, fun _ => ⟨by rw [hx]; rfl, fun _ => ⟨x, ?_, rfl⟩⟩⟩
      rw [hx]; rfl
    | succ n =>
      obtain ⟨km, hkm⟩ := hgood.getObjKey
      exact ⟨km, fun _ => ⟨hkm, fun hkeyed => absurd heq (hmedian hkeyed (by omega))⟩⟩
  · exact ⟨0, fun h => absurd h heq⟩

/-- Both halves of a page that is split are good, and the key that goes up is that of the right one. -/
theorem Halves.good {n : Nat} {current l r : BTPage} {hi : Int} {k k0 km kmed : Nat} {p : BTPtr}
    (h : Halves order current hi k k0 km p l kmed r) (ho : ValidOrder order)
    (hfull : current.count = maxKey order) (hleaf : current.isleaf = decide (n = 0))
    (hgood : ∀ i ≤ current.count + 1,
      Good keyed lo (maxKey order) n (insChild current.child hi p i) ∧
        (n ≠ 0 → lo ≤ (insChild current.child hi p i).keys))
    (hok : ∀ i ≤ current.count,
      KeyOk keyed (insKey current.key hi k k0 i) (insChild current.child hi p (i + 1)))
    (hkm : hi = minKey order → KeyOk keyed km (current.child (minKey order + 1))) :
    (Good keyed lo (maxKey order) (n + 1) l.ptr ∧
        objs l.ptr = seg (insChild current.child hi p) 0 (minKey order + 1)) ∧
      (Good keyed lo (maxKey order) (n + 1) r.ptr ∧
        objs r.ptr = seg (insChild current.child hi p) (minKey order + 1) (minKey order + 1)) ∧
      KeyOk keyed kmed r.ptr := by
  have hmax := ho.max_eq
  have hmin := ho.two_le_min
  refine ⟨?_, ?_, ?_⟩
  · exact good_of_entries 0 (insKey current.key hi k k0) _ h.left_count (by omega)
      (by rw [h.left_leaf, hleaf])
      (fun i hi' => by rw [h.left_child i hi', Nat.zero_add])
      (fun i hi' => by rw [Nat.zero_add]; exact hgood i (by omega))
      (fun i hi' => by rw [h.left_key i hi', Nat.zero_add])
      (fun i hi' => by rw [Nat.zero_add]; exact hok i (by omega))
  · refine good_of_entries (minKey order + 1) (fun i => r.key (i - (minKey order + 1))) _
      h.right_count (by omega) (by rw [h.right_leaf, hleaf]) h.right_child
      (fun i hi' => hgood _ (by omega)) (fun i hi' => ?_) (fun i hi' => ?_)
    · congr 1; omega
    · have hidx : minKey order + 1 + i - (minKey order + 1) = i := by omega
      rw [hidx, h.right_key i hi']
      by_cases hc : hi = minKey order ∧ i = 0
      · rw [if_pos hc]
        obtain ⟨heq, rfl⟩ := hc
        rw [Nat.add_zero, insChild_behind _ p (by omega)]
        exact hkm heq
      · rw [if_neg hc]
        exact hok _ (by omega)
  · -- the promoted key is the base of the first object of the new page
    intro hkeyed
    have hfirst : r.child 0 = insChild current.child hi p (minKey order + 1) := by
      rw [h.right_child 0 (by omega), Nat.add_zero]
    have hk := hok (minKey order) (by omega) hkeyed
    have hne : objs (r.child 0) ≠ [] := by
      rw [hfirst]; exact (hgood _ (by omega)).1.objs_ne_nil
    rw [h.median]
    show ∃ x, (objs (.page r.count r.isleaf r.pad r.key r.child)).head? = some x ∧ _
    rw [head?_page hne, hfirst]
    exact hk

theorem btPlace_spec (ho : ValidOrder order) (n : Nat) (current : BTPage) (hi : Int)
    (k k0 : Nat) (p ngb : BTPtr) (pool : PagePool)
    (hcount : current.count ≤ maxKey order) (hleaf : current.isleaf = decide (n = 0))
    (hlo : -1 ≤ hi) (hhi : hi ≤ current.count)
    (hk0 : hi < 0 → btGetObjKey (current.child 0) = some k0)
    (hgood : ∀ i ≤ current.count + 1,
      Good keyed lo (maxKey order) n (insChild current.child hi p i) ∧
        (n ≠ 0 → lo ≤ (insChild current.child hi p i).keys))
    (hok : ∀ i ≤ current.count,
      KeyOk keyed (insKey current.key hi k k0 i) (insChild current.child hi p (i + 1)))
    (hmedian : keyed = true → n ≠ 0 → current.count = maxKey order → hi ≠ minKey order) :
    ∃ out, btPlace order current hi k p ngb pool = some out ∧
      PlacePost order keyed lo n current pool (insChild current.child hi p) out := by
  have hmax := ho.max_eq
  have hmin := ho.two_le_min
  unfold btPlace
  by_cases hroom : current.count < maxKey order
  · -- room in the page
    obtain ⟨q, hq, hqc, hql, hqk, hqch⟩ := btInsertPage_spec current hi k k0 p hlo hhi hk0
    have hpage : Good keyed lo (maxKey order) (n + 1) q.ptr ∧
        objs q.ptr = seg (insChild current.child hi p) 0 (current.count + 1 + 1) :=
      good_of_entries 0 (insKey current.key hi k k0) _ hqc (by omega) (by rw [hql, hleaf])
      (fun i hi' => by rw [hqch i hi', Nat.zero_add])
      (fun i hi' => by rw [Nat.zero_add]; exact hgood i hi')
      (fun i hi' => by rw [hqk i (by omega), Nat.zero_add])
      (fun i hi' => by rw [Nat.zero_add]; exact hok i (by omega))
    rw [if_pos hroom, hq]
    exact ⟨_, rfl, rfl, hroom, hpage.1, hpage.2, hqc, rfl⟩
  · rw [if_neg hroom]
    have hfull : current.count = maxKey order := by omega
    unfold objAllocPage
    cases hg : pool.grant pool.asked with
    | none =>
      exact ⟨_, rfl, rfl, rfl, by omega, rfl, hg⟩
    | some pad =>
      obtain ⟨km, hkm⟩ := middle_key (hgood (minKey order + 2) (by omega)).1
        fun hkeyed hn => hmedian hkeyed hn hfull
      obtain ⟨l, kmed, r, hs, hhalves⟩ := splitInsert_spec ho current
        { count := 0, isleaf := false, pad := pad, key := fun _ => 0, child := fun _ => .null }
        k p hfull hlo hhi hk0 (fun h => (hkm h).1)
      obtain ⟨hleft, hright, hkey⟩ :=
        hhalves.good ho hfull hleaf hgood hok fun h => (hkm h).2
      have hsplit : current.count + 2 = (minKey order + 1) + (minKey order + 1) := by omega
      simp only [Option.map_some, hs]
      refine ⟨_, rfl, rfl, by omega, hleft.1, hright.1, ?_, hleft.2, hkey, hhalves.left_count,
        hhalves.right_count, by rw [hg]; exact Option.some_ne_none _, rfl⟩
      rw [hleft.2, hright.2, hsplit, seg_add _ 0 (minKey order + 1), Nat.zero_add]

/-- The entries of a page after one has been put in. -/
theorem keyOk_insert {c : Nat} {key : Nat → Nat} {child : Nat → BTPtr} {hi : Int} {k k0 : Nat}
    {p : BTPtr} (hlo : -1 ≤ hi) (hhi : hi ≤ c)
    (hold : ∀ i < c, KeyOk keyed (key i) (child (i + 1)))
    (hp : KeyOk keyed k p) (h0 : hi < 0 → KeyOk keyed k0 (child 0)) :
    ∀ i ≤ c, KeyOk keyed (insKey key hi k k0 i) (insChild child hi p (i + 1)) := by
  intro i hi'
  -- an entry above the new one is the old entry before it
  have hmoved : 0 < i → KeyOk keyed (key (i - 1)) (child i) := by
    intro hpos
    have := hold (i - 1) (by omega)
    rwa [Nat.sub_add_cancel hpos] at this
  by_cases hneg : hi < 0
  · have hH : (hi + 1).toNat = 0 := by omega
    by_cases hz : i = 0
    · subst hz
      simpa [insKey, insChild, hneg, hH] using h0 hneg
    · simpa [insKey, insChild, hneg, hH, hz] using hmoved (by omega)
  · have hH : (hi + 1).toNat = hi.toNat + 1 := by omega
    rcases Nat.lt_trichotomy i hi.toNat with hlt | heq | hgt
    · simpa [insKey, insChild, hneg, hH, hlt] using hold i (by omega)
    · simpa [insKey, insChild, hneg, hH, heq] using hp
    · have h1 : ¬ i < hi.toNat := by omega
      have h2 : i ≠ hi.toNat := by omega
      simpa [insKey, insChild, hneg, hH, h1, h2] using hmoved (by omega)

theorem forall_insChild {c : Nat} {child : Nat → BTPtr} {hi : Int} {p : BTPtr}
    {P : BTPtr → Prop} (hhi : hi ≤ c) (hold : ∀ i ≤ c, P (child i)) (hp : P p) :
    ∀ i ≤ c + 1, P (insChild child hi p i) := by
  intro i hi'
  rw [insChild]
  split
  · exact hold i (by omega)
  · split
    · exact hp
    · exact hold (i - 1) (by omega)

/-- Replacing one child by a tree that begins with the same object. -/
theorem Good.update {n count : Nat} {isleaf : Bool} {pad : Nat} {key : Nat → Nat}
    {child : Nat → BTPtr} {o : Memsection} {h : Nat} {t' : BTPtr} {hi : Nat}
    (hg : Good keyed lo hi (n + 1) (.page count isleaf pad key child))
    (hlt : keyed = true → 0 < h → key (h - 1) < o.base)
    (ht : Good keyed lo hi n t') (hkeys : lo ≤ t'.keys) (hhead : HeadKept keyed o (child h) t') :
    Good keyed lo hi (n + 1) (.page count isleaf pad key (Function.update child h t')) := by
  obtain ⟨hc, hl, hch, hk⟩ := hg
  refine ⟨hc, hl, fun i hi' => ?_, fun i hi' => ?_⟩
  · by_cases heq : i = h
    · rw [heq, Function.update_self]
      exact ⟨ht, fun _ => hkeys⟩
    · rw [Function.update_of_ne heq]
      exact hch i hi'
  · by_cases heq : i + 1 = h
    · rw [heq, Function.update_self]
      intro hkeyed
      obtain ⟨x, hx, hxk⟩ := hk i hi' hkeyed
      rw [heq] at hx
      refine ⟨x, hhead hkeyed x hx ?_, hxk⟩
      have := hlt hkeyed (by omega)
      rw [← heq, Nat.add_sub_cancel] at this
      omega
    · rw [Function.update_of_ne heq]
      exact hk i hi'

theorem HeadKept.update {count : Nat} {isleaf : Bool} {pad : Nat} {key : Nat → Nat}
    {child : Nat → BTPtr} {o : Memsection} {h : Nat} {t' : BTPtr}
    (hhead : HeadKept keyed o (child h) t') (h0 : objs (child 0) ≠ []) (ht : objs t' ≠ []) :
    HeadKept keyed o (.page count isleaf pad key child)
      (.page count isleaf pad key (Function.update child h t')) := by
  intro hkeyed x hx hxo
  rw [head?_page h0] at hx
  by_cases hz : h = 0
  · subst hz
    have hne : objs (Function.update child 0 t' 0) ≠ [] := by rwa [Function.update_self]
    rw [head?_page hne, Function.update_self]
    exact hhead hkeyed x hx hxo
  · have hsame : Function.update child h t' 0 = child 0 :=
      Function.update_of_ne (fun heq => hz heq.symm) _ _
    rw [head?_page (by rwa [hsame]), hsame]
    exact hx

theorem seg_update {child : Nat → BTPtr} {h : Nat} {t' : BTPtr} {a n : Nat}
    (hout : h < a ∨ a + n ≤ h) : seg (Function.update child h t') a n = seg child a n := by
  apply seg_congr
  intro i hi
  exact Function.update_of_ne (by omega) _ _

end Place

/-! ### The recursion -/

/-- The objects that stay under the old page when it is split. -/
def lowerHalf (order : Nat) (o : Memsection) : BTPtr → List Memsection
  | .page count isleaf _ key child =>
      match insertIndex key o.base count 0 count with
      | none => []
      | some hi =>
          if hi < minKey order then o :: seg child 0 (minKey order)
          else if isleaf ∨ minKey order < hi then seg child 0 (minKey order + 1)
          else seg child 0 (minKey order) ++ lowerHalf order o (child hi)
  | _ => []

/-- What `BTInsert` leaves behind, for a tree of `n + 1` levels. -/
def InsertPost (order : Nat) (keyed : Bool) (lo : Nat) (o : Memsection) (n : Nat) (t : BTPtr)
    (pool : PagePool) (out : BTOut) : Prop :=
  out.pool.grant = pool.grant ∧
  match out.result with
  | .refused s =>
      (refusal o t = some s ∧ out.current = t ∧ out.pool = pool) ∨
      (refusal o t = none ∧ s = .allocFail ∧
        (∃ i < splitCount order o t, pool.grant (pool.asked + i) = none) ∧
        Good keyed lo (maxKey order) (n + 1) out.current ∧ HeadKept keyed o t out.current ∧
        out.current.keys = t.keys ∧ (innerSplit order o t = false → out.current = t))
  | .ok =>
      refusal o t = none ∧ splits order o t = false ∧
        Good keyed lo (maxKey order) (n + 1) out.current ∧
        PutIn keyed o (objs t) (objs out.current) ∧ t.keys ≤ out.current.keys ∧
        (∀ i < splitCount order o t, pool.grant (pool.asked + i) ≠ none) ∧
        out.pool.asked = pool.asked + splitCount order o t
  | .promotion k p =>
      refusal o t = none ∧ splits order o t = true ∧
        Good keyed lo (maxKey order) (n + 1) out.current ∧
        Good keyed lo (maxKey order) (n + 1) p ∧
        PutIn keyed o (objs t) (objs out.current ++ objs p) ∧ KeyOk keyed k p ∧
        out.current.keys = minKey order ∧ p.keys = minKey order ∧
        (∀ x, x ∈ objs out.current ↔ x ∈ lowerHalf order o t) ∧
        (∀ i < splitCount order o t, pool.grant (pool.asked + i) ≠ none) ∧
        out.pool.asked = pool.asked + splitCount order o t

theorem PutIn.headKept {keyed : Bool} {o : Memsection} {t t' : BTPtr} {ys : List Memsection}
    (h : PutIn keyed o (objs t) (objs t' ++ ys)) (hne : objs t' ≠ []) :
    HeadKept keyed o t t' := by
  intro hkeyed x hx hxo
  subst hkeyed
  have := h.inserted.head? hx hxo
  rwa [List.head?_append_of_ne_nil _ hne] at this

section Recursion

variable {order : Nat} {keyed : Bool} {lo : Nat} {o : Memsection}

/-- Where the new object goes relative to the children left and right of the path. -/
theorem Good.beside {n count : Nat} {isleaf : Bool} {pad : Nat} {key : Nat → Nat}
    {child : Nat → BTPtr} {hi h : Nat}
    (hg : Good true lo hi (n + 1) (.page count isleaf pad key child))
    (hs : Sorted Memsection.base (seg child 0 (count + 1))) (hh : h ≤ count)
    (hlt : 0 < h → key (h - 1) < o.base) (hgt : h < count → o.base < key h) :
    (∀ x ∈ seg child 0 h, x.base < o.base) ∧
      ∀ x ∈ seg child (h + 1) (count - h), o.base < x.base := by
  constructor
  · intro x hx
    by_cases hz : h = 0
    · rw [hz, seg_zero] at hx
      cases hx
    · have hsep := (hg.separates hs (show h - 1 < count by omega)).1 x
        (by rwa [Nat.sub_add_cancel (by omega)])
      have := hlt (by omega)
      omega
  · intro x hx
    by_cases hc : h = count
    · rw [hc, Nat.sub_self, seg_zero] at hx
      cases hx
    · have hsep := (hg.separates hs (show h < count by omega)).2 x hx
      have := hgt (by omega)
      omega

/-- The place of the new object beside child `h` of a leaf: in front of all, or behind the child. -/
def LeafPlace (o c : Memsection) (h : Nat) (hi : Int) : Prop :=
  (hi = -1 ∧ h = 0 ∧ o.base < c.base) ∨ (hi = h ∧ ¬ (h = 0 ∧ o.base < c.base))

/-- What lies in a leaf on either side of that place. -/
theorem leaf_sides {count pad : Nat} {key : Nat → Nat} {child : Nat → BTPtr} {h : Nat} {hi : Int}
    {c : Memsection} {max : Nat} (hg : Good true lo max 1 (.page count true pad key child))
    (hs : Sorted Memsection.base (seg child 0 (count + 1))) (hh : h ≤ count)
    (hlt : 0 < h → key (h - 1) < o.base) (hgt : h < count → o.base < key h)
    (hc : child h = .obj c) (hne : c.base ≠ o.base) (hplace : LeafPlace o c h hi) :
    (∀ x ∈ seg child 0 (hi + 1).toNat, x.base < o.base) ∧
      ∀ x ∈ seg child (hi + 1).toNat (count + 1 - (hi + 1).toNat), o.base < x.base := by
  obtain ⟨hleft, hright⟩ := hg.beside hs hh hlt hgt
  have hmem : ∀ x ∈ objs (child h), x = c := by
    intro x hx
    rw [hc] at hx
    simpa [objs] using hx
  rcases hplace with ⟨rfl, rfl, hoc⟩ | ⟨rfl, hnot⟩
  · refine ⟨fun x hx => absurd hx List.not_mem_nil, fun x hx => ?_⟩
    have hx' : x ∈ seg child 0 (count + 1) := hx
    rw [seg_window child (Nat.zero_le count), seg_zero, List.nil_append] at hx'
    rcases List.mem_append.mp hx' with hx | hx
    · rw [hmem x hx]
      exact hoc
    · exact hright x hx
  · have hH : ((h : Int) + 1).toNat = h + 1 := by omega
    have hcb : c.base < o.base := by
      by_cases hz : h = 0
      · omega
      · -- the key in front of the child is its base
        obtain ⟨x, hx, hxk⟩ := hg.2.2.2 (h - 1) (by omega) rfl
        rw [Nat.sub_add_cancel (by omega)] at hx
        have hbelow := hlt (by omega)
        rwa [← hxk, hmem x (List.mem_of_mem_head? hx)] at hbelow
    rw [hH]
    refine ⟨fun x hx => ?_, fun x hx => ?_⟩
    · rw [seg_add, Nat.zero_add, seg_one] at hx
      rcases List.mem_append.mp hx with hx | hx
      · exact hleft x hx
      · rw [hmem x hx]
        exact hcb
    · rw [Nat.add_sub_add_right] at hx
      exact hright x hx

/-- The leaf case of `btInsert_spec`: the overlap tests have passed and the object is
    placed beside child `h`. -/
theorem leaf_place (ho : ValidOrder order) {count pad : Nat} {key : Nat → Nat}
    {child : Nat → BTPtr} {h : Nat} {c : Memsection} (pool : PagePool)
    (hg : Good keyed lo (maxKey order) 1 (.page count true pad key child))
    (hs : keyed = true → Sorted Memsection.base (seg child 0 (count + 1)))
    (hh : h ≤ count) (hlt : 0 < h → key (h - 1) < o.base) (hgt : h < count → o.base < key h)
    (hc : child h = .obj c) (hne : keyed = true → c.base ≠ o.base) :
    ∃ out, btPlace order ⟨count, true, pad, key, child⟩
        (if h = 0 ∧ o.base < c.base then -1 else h) o.base (.obj o) (.obj c) pool = some out ∧
      ∃ hi : Int, -1 ≤ hi ∧ hi ≤ h ∧ (hi < 0 ∨ hi = h) ∧ (hi < 0 → h = 0) ∧
        PutIn keyed o (seg child 0 (count + 1))
          (seg (insChild child hi (.obj o)) 0 (count + 2)) ∧
        PlacePost order keyed lo 0 ⟨count, true, pad, key, child⟩ pool
          (insChild child hi (.obj o)) out := by
  have hgood := hg
  obtain ⟨hcount, -, hch, hk⟩ := hg
  generalize hhi : (if h = 0 ∧ o.base < c.base then (-1 : Int) else h) = hi
  have hat : LeafPlace o c h hi := by
    split at hhi
    · next hcond => exact .inl ⟨hhi.symm, hcond⟩
    · next hcond => exact .inr ⟨hhi.symm, hcond⟩
  have hside : hi = -1 ∧ h = 0 ∨ hi = h := hat.imp (fun h => ⟨h.1, h.2.1⟩) fun h => h.1
  have hlo : -1 ≤ hi := by omega
  have hle : hi ≤ count := by omega
  have hkey0 : hi < 0 → child 0 = .obj c := by
    intro hn
    obtain rfl : h = 0 := by omega
    exact hc
  obtain ⟨out, hout, hpost⟩ :=
    btPlace_spec ho 0 ⟨count, true, pad, key, child⟩ hi o.base c.base (.obj o) (.obj c) pool
      hcount rfl hlo hle
      (fun hn => by show btGetObjKey (child 0) = _; rw [hkey0 hn]; rfl)
      (fun i hi' => ⟨forall_insChild (P := fun t => Good keyed lo (maxKey order) 0 t) hle
        (fun i hi' => (hch i hi').1) ⟨o, rfl⟩ i hi', fun h0 => absurd rfl h0⟩)
      (keyOk_insert hlo hle hk (fun _ => ⟨o, rfl, rfl⟩)
        (fun hn _ => ⟨c, by show (objs (child 0)).head? = _; rw [hkey0 hn]; rfl, rfl⟩))
      (fun _ h0 => absurd rfl h0)
  refine ⟨out, hout, hi, hlo, by omega, by omega, by omega, ?_, hpost⟩
  -- where the list is cut
  have hcut : count + 1 = (hi + 1).toNat + (count + 1 - (hi + 1).toNat) := by omega
  refine ⟨seg child 0 (hi + 1).toNat, seg child (hi + 1).toNat (count + 1 - (hi + 1).toNat),
    ?_, ?_, fun hkeyed => ?_⟩
  · conv_lhs => rw [hcut, seg_add, Nat.zero_add]
  · rw [seg_insChild child (.obj o) hle]
    simp [objs]
  · subst hkeyed
    exact leaf_sides hgood (hs rfl) hh hlt hgt hc (hne rfl) hat

theorem seg_insChild_above (child : Nat → BTPtr) (p : BTPtr) {hi : Int} {m : Nat}
    (hm : (m : Int) ≤ hi) : seg (insChild child hi p) 0 (m + 1) = seg child 0 (m + 1) := by
  apply seg_congr
  intro i hi'
  rw [insChild, if_pos (by omega)]

theorem mem_seg_insChild_below (child : Nat → BTPtr) (p : BTPtr) {hi : Int} {m : Nat}
    (hm : 0 < m) (hhi : hi < m) {x : Memsection} :
    x ∈ seg (insChild child hi p) 0 (m + 1) ↔ x ∈ objs p ∨ x ∈ seg child 0 m := by
  have hcut : m = (hi + 1).toNat + (m - (hi + 1).toNat) := by omega
  have hidx : m - 1 + 1 = m := by omega
  have hins := seg_insChild child p (show hi ≤ ((m - 1 : Nat) : Int) by omega)
  rw [show m - 1 + 2 = m + 1 by omega, hidx] at hins
  have hall : seg child 0 m = seg child 0 (hi + 1).toNat ++
      seg child (hi + 1).toNat (m - (hi + 1).toNat) := by
    conv_lhs => rw [hcut, seg_add, Nat.zero_add]
  rw [hins, hall]
  simp only [List.mem_append]
  tauto

theorem mem_lowerHalf_leaf (ho : ValidOrder order) {count pad : Nat} {key : Nat → Nat}
    {child : Nat → BTPtr} {h : Nat} {hi : Int}
    (hidx : insertIndex key o.base count 0 count = some h) (hhi : hi < 0 ∨ hi = h)
    (hz : hi < 0 → h = 0) (x : Memsection) :
    x ∈ seg (insChild child hi (.obj o)) 0 (minKey order + 1) ↔
      x ∈ lowerHalf order o (.page count true pad key child) := by
  have hmin := ho.two_le_min
  rw [lowerHalf]
  simp only [hidx, true_or, if_true]
  by_cases hlt : h < minKey order
  · rw [if_pos hlt, mem_seg_insChild_below child (.obj o) (by omega) (by omega)]
    simp [objs]
  · rw [if_neg hlt, seg_insChild_above child (.obj o) (by omega)]

theorem mem_lowerHalf_inner (ho : ValidOrder order) {count pad : Nat} {key : Nat → Nat}
    {child : Nat → BTPtr} {h : Nat} {t' p : BTPtr}
    (hidx : insertIndex key o.base count 0 count = some h)
    (hput : PutIn keyed o (objs (child h)) (objs t' ++ objs p))
    (hlow : ∀ x, x ∈ objs t' ↔ x ∈ lowerHalf order o (child h)) (x : Memsection) :
    x ∈ seg (insChild (Function.update child h t') h p) 0 (minKey order + 1) ↔
      x ∈ lowerHalf order o (.page count false pad key child) := by
  have hmin := ho.two_le_min
  have hmem : x ∈ objs t' ∨ x ∈ objs p ↔ x = o ∨ x ∈ objs (child h) := by
    rw [← List.mem_append, hput.perm.mem_iff, List.mem_cons]
  rw [lowerHalf]
  simp only [hidx, Bool.false_eq_true, false_or]
  by_cases hlt : h < minKey order
  · have hm : minKey order = minKey order - 1 + 1 := by omega
    have hw := seg_window child (show h ≤ minKey order - 1 by omega)
    have hw' := seg_window (Function.update child h t') (show h ≤ minKey order - 1 by omega)
    rw [← hm] at hw hw'
    rw [if_pos hlt, mem_seg_insChild_below _ p (by omega) (by omega), List.mem_cons, hw, hw',
      Function.update_self, seg_update (Or.inr (by omega)), seg_update (Or.inl (by omega))]
    simp only [List.mem_append]
    tauto
  · rw [if_neg hlt, seg_insChild_above _ p (by omega)]
    by_cases hgt : minKey order < h
    · rw [if_pos hgt, seg_update (Or.inr (by omega))]
    · have heq : h = minKey order := by omega
      rw [if_neg hgt, seg_add, seg_one, Nat.zero_add, seg_update (Or.inr (by omega)),
        List.mem_append, List.mem_append]
      rw [← heq, Function.update_self, hlow x]

/-- The objects of an inner page whose child `h` was split in two. -/
theorem seg_split_child (child : Nat → BTPtr) {h c : Nat} (hh : h ≤ c) (t' p : BTPtr) :
    seg (insChild (Function.update child h t') h p) 0 (c + 2) =
      seg child 0 h ++ (objs t' ++ objs p) ++ seg child (h + 1) (c - h) := by
  rw [seg_insChild _ p (by omega), show ((h : Int) + 1).toNat = h + 1 by omega, seg_add, seg_one,
    Nat.zero_add, Function.update_self, seg_update (Or.inr (by omega)),
    seg_update (Or.inl (by omega)), Nat.add_sub_add_right]
  simp only [List.append_assoc]

/-- What the recursion relies on when the keys matter. -/
def Sound (order : Nat) (keyed : Bool) (o : Memsection) (t : BTPtr) : Prop :=
  keyed = true → Sorted Memsection.base (objs t) ∧
    Proper Memsection.base Memsection.end_ (objs t) ∧ medianSplit order o t = false

theorem Sound.child {n count : Nat} {isleaf : Bool} {pad : Nat} {key : Nat → Nat}
    {child : Nat → BTPtr} {h : Nat}
    (hs : Sound order keyed o (.page count isleaf pad key child)) (hleaf : isleaf = decide (n = 0))
    (hn : n ≠ 0) (hidx : insertIndex key o.base count 0 count = some h) (hh : h ≤ count) :
    Sound order keyed o (child h) := by
  intro hkeyed
  obtain ⟨hsort, hproper, hmed⟩ := hs hkeyed
  rw [objs_page, seg_window child hh] at hsort hproper
  refine ⟨(sorted_append.mp (sorted_append.mp hsort).1).2.1, fun x hx => ?_, ?_⟩
  · exact hproper x (List.mem_append_left _ (List.mem_append_right _ hx))
  · simp only [medianSplit, hidx, hleaf, decide_eq_false hn, Bool.not_false, Bool.true_and,
      Bool.or_eq_false_iff] at hmed
    exact hmed.2

/-- What is placed in a leaf is what the insertion leaves behind. -/
theorem leaf_post (ho : ValidOrder order) {count pad : Nat} {key : Nat → Nat} {child : Nat → BTPtr}
    {h : Nat} {hi : Int} {pool : PagePool} {out : BTOut}
    (hg : Good keyed lo (maxKey order) 1 (.page count true pad key child))
    (hidx : insertIndex key o.base count 0 count = some h)
    (hnone : refusal o (.page count true pad key child) = none) (hcase : hi < 0 ∨ hi = h)
    (hz : hi < 0 → h = 0)
    (hput : PutIn keyed o (seg child 0 (count + 1)) (seg (insChild child hi (.obj o)) 0 (count + 2)))
    (hpost : PlacePost order keyed lo 0 ⟨count, true, pad, key, child⟩ pool
      (insChild child hi (.obj o)) out) :
    InsertPost order keyed lo o 0 (.page count true pad key child) pool out := by
  obtain ⟨hgrant, hpost⟩ := hpost
  refine ⟨hgrant, ?_⟩
  have hcnt : splitCount order o (.page count true pad key child) =
      if count < maxKey order then 0 else 1 := by
    simp [splitCount]
  rw [objs_page]
  cases hres : out.result with
  | refused st =>
    simp only [hres] at hpost ⊢
    obtain ⟨rfl, hfull, hcur, hfail⟩ := hpost
    refine Or.inr ⟨hnone, rfl, ⟨0, ?_, hfail⟩, ?_, ?_, ?_, fun _ => hcur⟩
    · rw [hcnt, if_neg (Nat.not_lt.mpr hfull)]
      exact Nat.one_pos
    · rw [hcur]; exact hg
    · rw [hcur]; exact fun _ x hx _ => hx
    · rw [hcur]; rfl
  | ok =>
    simp only [hres] at hpost ⊢
    obtain ⟨hroom, hgood', hobjs, hkeys, hasked⟩ := hpost
    rw [if_pos hroom] at hcnt
    refine ⟨hnone, ?_, hgood', hobjs ▸ hput, ?_, ?_, ?_⟩
    · simp only [splits, hroom, decide_true, Bool.not_true, Bool.false_and]
    · rw [hkeys]; exact Nat.le_succ count
    · intro i hi'
      rw [hcnt] at hi'
      exact absurd hi' (Nat.not_lt_zero i)
    · rw [hcnt, hasked]; rfl
  | promotion k p =>
    simp only [hres] at hpost ⊢
    obtain ⟨hfull, hgood', hgoodp, hobjs, hlow, hkey, hkeys, hkeysp, hgr, hasked⟩ := hpost
    have hnot : ¬ count < maxKey order := Nat.not_lt.mpr hfull
    rw [if_neg hnot] at hcnt
    refine ⟨hnone, by simp [splits, hnot], hgood', hgoodp, hobjs ▸ hput, hkey, hkeys, hkeysp, ?_, ?_,
      ?_⟩
    · intro x
      rw [hlow]
      exact mem_lowerHalf_leaf ho hidx hcase hz x
    · intro i hi'
      rw [hcnt] at hi'
      obtain rfl : i = 0 := by omega
      exact hgr
    · rw [hcnt, hasked]

theorem btInsert_leaf (ho : ValidOrder order) {t : BTPtr}
    (hg : Good keyed lo (maxKey order) 1 t) (hs : Sound order keyed o t)
    (ngb : BTPtr) (pool : PagePool) :
    ∃ out, btInsert order o t ngb pool = some out ∧ InsertPost order keyed lo o 0 t pool out := by
  obtain ⟨count, isleaf, pad, key, child, rfl⟩ := hg.page_eq
  obtain rfl : isleaf = true := hg.2.1
  have hgood := hg
  obtain ⟨hcount, -, hch, -⟩ := hg
  rw [btInsert]
  cases hidx : insertIndex key o.base count 0 count with
  | none => exact ⟨_, rfl, rfl, Or.inl ⟨by simp [refusal, hidx], rfl, rfl⟩⟩
  | some h =>
    obtain ⟨hh, hlt, hgt⟩ := insertIndex_some hidx
    obtain ⟨c, hc⟩ := (hch h hh).1
    simp only [hc]
    by_cases hov : h < count ∧ btObjMatch o (key h) = true
    · rw [if_pos hov]
      exact ⟨_, rfl, rfl, Or.inl ⟨by simp [refusal, hidx, hov], rfl, rfl⟩⟩
    · rw [if_neg hov, if_pos trivial]
      by_cases hov' : btObjMatch c o.base = true ∨ h = 0 ∧ btOverlaps o c = true
      · rw [if_pos hov']
        refine ⟨_, rfl, rfl, Or.inl ⟨?_, rfl, rfl⟩⟩
        simp only [refusal, hidx, hc, if_neg hov, if_true, if_pos hov']
      · rw [if_neg hov']
        have hnone : refusal o (.page count true pad key child) = none := by
          simp only [refusal, hidx, hc, if_neg hov, if_true, if_neg hov']
        -- a proper object whose base is not matched has another base
        have hne : keyed = true → c.base ≠ o.base := by
          intro hkeyed heq
          have hp := (hs hkeyed).2.1 c (by
            rw [objs_page]
            exact mem_seg.mpr ⟨h, by omega, by omega, by rw [hc]; simp [objs]⟩)
          apply hov'
          left
          simp only [btObjMatch, heq, ge_iff_le, Nat.le_refl, decide_true, Bool.true_and,
            decide_eq_true_eq]
          rw [← heq]
          exact hp
        have hsort : keyed = true → Sorted Memsection.base (seg child 0 (count + 1)) :=
          fun hkeyed => by have := (hs hkeyed).1; rwa [objs_page] at this
        obtain ⟨out, hout, hi, hlo, hle, hcase, hz, hput, hpost⟩ :=
          leaf_place ho pool hgood hsort hh hlt hgt hc hne
        exact ⟨out, hout, leaf_post ho hgood hidx hnone hcase hz hput hpost⟩

/-- The inner case of `btInsert_spec`: child `h` has been split and the promoted entry is
    placed beside it. -/
theorem inner_place (ho : ValidOrder order) {n count pad : Nat} {key : Nat → Nat}
    {child : Nat → BTPtr} {h k : Nat} {t' p : BTPtr} (ngb : BTPtr) (pool : PagePool)
    (hn : n ≠ 0) (hlo : lo ≤ minKey order)
    (hg : Good keyed lo (maxKey order) (n + 1) (.page count false pad key child))
    (hh : h ≤ count) (hlt : 0 < h → key (h - 1) < o.base)
    (ht : Good keyed lo (maxKey order) n t') (hp : Good keyed lo (maxKey order) n p)
    (hput : PutIn keyed o (objs (child h)) (objs t' ++ objs p)) (hk : KeyOk keyed k p)
    (htkeys : t'.keys = minKey order) (hpkeys : p.keys = minKey order)
    (hmedian : keyed = true → count = maxKey order → h ≠ minKey order) :
    Good keyed lo (maxKey order) (n + 1) (.page count false pad key (Function.update child h t')) ∧
    ∃ out, btPlace order ⟨count, false, pad, key, Function.update child h t'⟩ h k p ngb pool =
        some out ∧
      PlacePost order keyed lo n ⟨count, false, pad, key, Function.update child h t'⟩ pool
        (insChild (Function.update child h t') h p) out := by
  have hhead : HeadKept keyed o (child h) t' := hput.headKept ht.objs_ne_nil
  have hg' := hg.update (fun _ => hlt) ht (by omega) hhead
  refine ⟨hg', ?_⟩
  obtain ⟨hcount, -, hch, hkeys⟩ := hg'
  refine btPlace_spec ho n ⟨count, false, pad, key, Function.update child h t'⟩ h k 0 p ngb pool
    hcount (by rw [decide_eq_false hn]) (by omega) (Int.ofNat_le.mpr hh)
    (fun hneg => absurd hneg (by omega)) ?_
    (keyOk_insert (by omega) (Int.ofNat_le.mpr hh) hkeys hk (fun hneg => absurd hneg (by omega)))
    (fun hkeyed _ hfull heq => hmedian hkeyed hfull (by exact_mod_cast heq))
  exact forall_insChild
    (P := fun t => Good keyed lo (maxKey order) n t ∧ (n ≠ 0 → lo ≤ t.keys))
    (Int.ofNat_le.mpr hh) hch ⟨hp, fun _ => by omega⟩

/-- An inner page below whose child `h` the object belongs. -/
structure Descends (order : Nat) (keyed : Bool) (lo : Nat) (o : Memsection) (n count pad : Nat)
    (key : Nat → Nat) (child : Nat → BTPtr) (h : Nat) : Prop where
  good : Good keyed lo (maxKey order) (n + 2) (.page count false pad key child)
  sound : Sound order keyed o (.page count false pad key child)
  index : insertIndex key o.base count 0 count = some h
  passed : ¬ (h < count ∧ btObjMatch o (key h) = true)

namespace Descends

variable {n count pad h : Nat} {key : Nat → Nat} {child : Nat → BTPtr}
  (d : Descends order keyed lo o n count pad key child h)

include d

theorem le : h ≤ count := (insertIndex_some d.index).1

theorem lt : 0 < h → key (h - 1) < o.base := (insertIndex_some d.index).2.1

theorem child_good : Good keyed lo (maxKey order) (n + 1) (child h) := (d.good.2.2.1 h d.le).1

theorem child_sound : Sound order keyed o (child h) :=
  d.sound.child (n := n + 1) (decide_eq_false (by omega)).symm (by omega) d.index d.le

theorem objs_first : objs (child 0) ≠ [] := (d.good.2.2.1 0 (by omega)).1.objs_ne_nil

theorem refusal_eq : refusal o (.page count false pad key child) = refusal o (child h) := by
  simp only [refusal, d.index, if_neg d.passed, Bool.false_eq_true, if_false]

theorem splitCount_eq : splitCount order o (.page count false pad key child) =
    splitCount order o (child h) +
      if !decide (count < maxKey order) && splits order o (child h) then 1 else 0 := by
  simp only [splitCount, d.index, Bool.false_eq_true, if_false]

theorem splits_eq : splits order o (.page count false pad key child) =
    (!decide (count < maxKey order) && splits order o (child h)) := by
  simp only [splits, d.index, Bool.false_or]

theorem innerSplit_eq : innerSplit order o (.page count false pad key child) =
    ((!decide (count < maxKey order) && splits order o (child h)) ||
      innerSplit order o (child h)) := by
  simp only [innerSplit, d.index, Bool.not_false, Bool.true_and]

/-- The objects left and right of the path, when the keys matter. -/
theorem beside (hkeyed : keyed = true) : (∀ x ∈ seg child 0 h, x.base < o.base) ∧
    ∀ x ∈ seg child (h + 1) (count - h), o.base < x.base := by
  subst hkeyed
  have hsort := (d.sound rfl).1
  rw [objs_page] at hsort
  exact d.good.beside hsort d.le d.lt (insertIndex_some d.index).2.2

/-- A full page never gets an entry from below at its median. -/
theorem ne_median (hsplit : splits order o (child h) = true) :
    keyed = true → count = maxKey order → h ≠ minKey order := by
  intro hkeyed hfull heq
  have hmed := (d.sound hkeyed).2.2
  have hnot : ¬ count < maxKey order := by omega
  simp only [medianSplit, d.index, hsplit, decide_eq_false hnot, decide_eq_true heq] at hmed
  exact absurd hmed (by simp)

variable {pool : PagePool} {r : BTOut} (hpost : InsertPost order keyed lo o n (child h) pool r)

include hpost

theorem refused {st : BTStatus} (hres : r.result = .refused st) :
    InsertPost order keyed lo o (n + 1) (.page count false pad key child) pool
      ⟨.refused st, .page count false pad key (Function.update child h r.current), r.ngb, r.pool⟩ := by
  obtain ⟨hgrant, hpost⟩ := hpost
  simp only [hres] at hpost
  refine ⟨hgrant, ?_⟩
  rcases hpost with ⟨h1, h2, h3⟩ | ⟨h1, h2, ⟨i, hi, hfail⟩, h4, h5, h6, h7⟩
  · exact Or.inl ⟨by rw [d.refusal_eq, h1], by rw [h2, Function.update_eq_self], h3⟩
  · refine Or.inr ⟨by rw [d.refusal_eq, h1], h2, ⟨i, by rw [d.splitCount_eq]; omega, hfail⟩, ?_, ?_,
      rfl, ?_⟩
    · exact d.good.update (fun _ => d.lt) h4
        (by rw [h6]; exact (d.good.2.2.1 h d.le).2 (by omega)) h5
    · exact h5.update d.objs_first h4.objs_ne_nil
    · intro hno
      rw [d.innerSplit_eq, Bool.or_eq_false_iff] at hno
      rw [h7 hno.2, Function.update_eq_self]

theorem ok (hres : r.result = .ok) :
    InsertPost order keyed lo o (n + 1) (.page count false pad key child) pool
      ⟨.ok, .page count false pad key (Function.update child h r.current), r.ngb, r.pool⟩ := by
  obtain ⟨hgrant, hpost⟩ := hpost
  simp only [hres] at hpost
  obtain ⟨h1, h2, h3, h4, h5, h6, h7⟩ := hpost
  have hput : PutIn keyed o (objs (child h)) (objs r.current ++ []) := by
    rwa [List.append_nil]
  have hcount : splitCount order o (.page count false pad key child) =
      splitCount order o (child h) := by
    rw [d.splitCount_eq, h2, Bool.and_false]
    rfl
  refine ⟨hgrant, by rw [d.refusal_eq, h1], by rw [d.splits_eq, h2, Bool.and_false], ?_, ?_,
    Nat.le_refl _, by rwa [hcount], by rwa [hcount]⟩
  · refine d.good.update (fun _ => d.lt) h3 ?_ (hput.headKept h3.objs_ne_nil)
    exact Nat.le_trans ((d.good.2.2.1 h d.le).2 (by omega)) h5
  · rw [objs_page, objs_page, seg_window child d.le, seg_window _ d.le, Function.update_self,
      seg_update (Or.inr (by omega)), seg_update (Or.inl (by omega))]
    exact h4.window (fun hk => (d.beside hk).1) (fun hk => (d.beside hk).2)

/-- The entry that comes from below is put into the page, which may be split for it. -/
theorem promotion (ho : ValidOrder order) (hlo : lo ≤ minKey order) {k : Nat} {p : BTPtr}
    (hres : r.result = .promotion k p) :
    ∃ out, btPlace order ⟨count, false, pad, key, Function.update child h r.current⟩ h k p r.ngb
        r.pool = some out ∧
      InsertPost order keyed lo o (n + 1) (.page count false pad key child) pool out := by
  obtain ⟨hgrant, hpost⟩ := hpost
  simp only [hres] at hpost
  obtain ⟨h1, h2, h3, h4, h5, h6, h7, h8, h9, h10, h11⟩ := hpost
  obtain ⟨hg, out, hout, hogrant, hplace⟩ := inner_place ho r.ngb r.pool (show n + 1 ≠ 0 by omega)
    hlo d.good d.le d.lt h3 h4 h5 h6 h7 h8 (d.ne_median h2)
  refine ⟨out, hout, hogrant.trans hgrant, ?_⟩
  have hput : PutIn keyed o (objs (.page count false pad key child))
      (seg (insChild (Function.update child h r.current) h p) 0 (count + 2)) := by
    rw [objs_page, seg_window child d.le, seg_split_child child d.le]
    exact h5.window (fun hk => (d.beside hk).1) (fun hk => (d.beside hk).2)
  have hhead : HeadKept keyed o (.page count false pad key child)
      (.page count false pad key (Function.update child h r.current)) :=
    (h5.headKept h3.objs_ne_nil).update d.objs_first h3.objs_ne_nil
  have hcnt := d.splitCount_eq
  have hspl := d.splits_eq
  have hin := d.innerSplit_eq
  rw [h2, Bool.and_true] at hcnt hspl hin
  cases hres' : out.result with
  | refused st =>
    simp only [hres'] at hplace ⊢
    obtain ⟨rfl, hfull, hcur, hfail⟩ := hplace
    have hnot : ¬ count < maxKey order := Nat.not_lt.mpr hfull
    simp only [hnot, decide_false, Bool.not_false, if_true] at hcnt
    refine Or.inr ⟨by rw [d.refusal_eq, h1], rfl,
      ⟨splitCount order o (child h), by omega, ?_⟩, ?_, ?_, ?_, ?_⟩
    · rw [← hgrant, ← h11]; exact hfail
    · rw [hcur]; exact hg
    · rw [hcur]; exact hhead
    · rw [hcur]; rfl
    · intro hno
      simp [hin, hnot] at hno
  | ok =>
    simp only [hres'] at hplace ⊢
    obtain ⟨hroom, hgood, hobjs, hkeys, hasked⟩ := hplace
    have hroom' : count < maxKey order := hroom
    simp only [hroom', decide_true, Bool.not_true, Bool.false_eq_true, if_false,
      Nat.add_zero] at hcnt
    refine ⟨by rw [d.refusal_eq, h1], ?_, hgood, hobjs ▸ hput, ?_, by rwa [hcnt], ?_⟩
    · rw [hspl, decide_eq_true hroom', Bool.not_true]
    · rw [hkeys]; exact Nat.le_succ count
    · rw [hasked, h11, hcnt]
  | promotion k' p' =>
    simp only [hres'] at hplace ⊢
    obtain ⟨hfull, hgood, hgoodp, hobjs, hlow, hkey, hkeys, hkeysp, hgr, hasked⟩ := hplace
    have hnot : ¬ count < maxKey order := Nat.not_lt.mpr hfull
    simp only [hnot, decide_false, Bool.not_false, if_true] at hcnt
    refine ⟨by rw [d.refusal_eq, h1], ?_, hgood, hgoodp, hobjs ▸ hput, hkey, hkeys, hkeysp,
      ?_, ?_, ?_⟩
    · rw [hspl, decide_eq_false hnot, Bool.not_false]
    · intro x
      rw [hlow]
      exact mem_lowerHalf_inner ho d.index h5 h9 x
    · intro i hi
      rw [hcnt] at hi
      by_cases hlast : i < splitCount order o (child h)
      · exact h10 i hlast
      · obtain rfl : i = splitCount order o (child h) := by omega
        rw [← hgrant, ← h11]
        exact hgr
    · rw [hasked, h11, hcnt]; rfl

end Descends

/-- **`BTInsert`.**  On every tree of the right shape the recursion ends with one of: a
    refusal that changes nothing, a lack of pages, the object put in, or the object put in
    and the page split in two. -/
theorem btInsert_spec (ho : ValidOrder order) (hlo : lo ≤ minKey order) :
    ∀ (n : Nat) (t : BTPtr), Good keyed lo (maxKey order) (n + 1) t → Sound order keyed o t →
      ∀ (ngb : BTPtr) (pool : PagePool), ∃ out, btInsert order o t ngb pool = some out ∧
        InsertPost order keyed lo o n t pool out := by
  intro n
  induction n with
  | zero => exact fun t hg hs ngb pool => btInsert_leaf ho hg hs ngb pool
  | succ n ih =>
    intro t hg hs ngb pool
    obtain ⟨count, isleaf, pad, key, child, rfl⟩ := hg.page_eq
    obtain rfl : isleaf = false := by rw [hg.2.1]; exact decide_eq_false (by omega)
    rw [btInsert]
    cases hidx : insertIndex key o.base count 0 count with
    | none => exact ⟨_, rfl, rfl, Or.inl ⟨by simp [refusal, hidx], rfl, rfl⟩⟩
    | some h =>
      by_cases hov : h < count ∧ btObjMatch o (key h) = true
      · simp only [if_pos hov]
        exact ⟨_, rfl, rfl, Or.inl ⟨by simp [refusal, hidx, hov], rfl, rfl⟩⟩
      · simp only [if_neg hov, Bool.false_eq_true, if_false]
        have d : Descends order keyed lo o n count pad key child h := ⟨hg, hs, hidx, hov⟩
        obtain ⟨r, hr, hpost⟩ := ih (child h) d.child_good d.child_sound ngb pool
        rw [hr]
        cases hres : r.result with
        | refused st =>
          simp only [hres]
          exact ⟨_, rfl, d.refused hpost hres⟩
        | ok =>
          simp only [hres]
          exact ⟨_, rfl, d.ok hpost hres⟩
        | promotion k p =>
          simp only [hres]
          exact d.promotion hpost ho hlo hres

end Recursion

end FreeVMS.BTree
