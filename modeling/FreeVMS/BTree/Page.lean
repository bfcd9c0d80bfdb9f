import Mathlib.Logic.Function.Basic
import Mathlib.Data.Nat.Basic
import Mathlib.Tactic.Ring

/-!
# Pages of the object-table B+tree

The data model of `b_plus_tree.h` and the two array loops of `sys_btree.c`:
the insertion of one entry into a page that has room (`BTInsertPage`) and the
redistribution of a full page over itself and a fresh one.  `BT_ORDER` is a
parameter throughout; `255` is the deployed value.

The arrays `key[]` and `child[]` are functions of their index.  A `child[]` slot
is an untyped pointer in the source: it holds a page in an inner page and an
object in a leaf, and `BTGetObjKey` reads the first word of whichever it is
given.  `BTPtr` keeps these readings apart, so that reading a page as an object
is visible in the model instead of being ruled out by a type.
-/

namespace FreeVMS.BTree

/-- The part of `struct memsection` the tree reads, with the address it lives at:
    the tree stores pointers, so two sections are the same object exactly when
    they sit at the same address. -/
structure Memsection where
  addr : Nat
  base : Nat
  end_ : Nat
deriving DecidableEq, Repr

/-- What a `struct sBTPage *` can point to.  `pad` is the three bytes between
    `isleaf` and `key[]`, which no function writes. -/
inductive BTPtr where
  | null
  | obj (o : Memsection)
  | page (count : Nat) (isleaf : Bool) (pad : Nat) (key : Nat → Nat) (child : Nat → BTPtr)

/-- `struct sBTPage`. -/
structure BTPage where
  count : Nat
  isleaf : Bool
  pad : Nat
  key : Nat → Nat
  child : Nat → BTPtr

/-- The pointer to a page. -/
def BTPage.ptr (p : BTPage) : BTPtr := .page p.count p.isleaf p.pad p.key p.child

/-- `BT_MAXKEY`. -/
def maxKey (order : Nat) : Nat := order - 1

/-- `BT_MINKEY`. -/
def minKey (order : Nat) : Nat := maxKey order / 2

/-- The status codes of `b_plus_tree.h`; `BT_FOUND` is `BT_OK`. -/
inductive BTStatus where
  | ok
  | invalid
  | notFound
  | duplicate
  | overlap
  | allocFail
  | promotion
deriving DecidableEq, Repr

/-- The numbers behind the status codes. -/
def BTStatus.code : BTStatus → Nat
  | .ok => 0
  | .invalid => 1
  | .notFound => 2
  | .duplicate => 3
  | .overlap => 4
  | .allocFail => 5
  | .promotion => 6

/-! ### The macros on objects -/

/-- `BTGetObjKey`: the word at offset 0.  For an object that is its `base`; a page
    begins with `int count; bool isleaf;` and three bytes of padding. -/
def btGetObjKey : BTPtr → Option Nat
  | .null => none
  | .obj o => some o.base
  | .page count isleaf pad _ _ => some (count + (if isleaf then 2 ^ 32 else 0) + pad * 2 ^ 40)

/-- `BTObjMatch`: the key lies inside the object. -/
def btObjMatch (o : Memsection) (k : Nat) : Bool := decide (k ≥ o.base) && decide (k ≤ o.end_)

/-- `BTOverlaps`: an end point of `o1` lies inside `o2`. -/
def btOverlaps (o1 o2 : Memsection) : Bool :=
  (decide (o1.end_ ≥ o2.base) && decide (o1.end_ ≤ o2.end_)) ||
    (decide (o1.base ≥ o2.base) && decide (o1.base ≤ o2.end_))

/-! ### `BTInsertPage` -/

/-- The loop `for(i = count - 1; i >= m; i--)` of `BTInsertPage`, with `n`
    iterations to go: the next one has `i = m + n - 1`. -/
def shiftUp (m : Nat) : Nat → BTPage → BTPage
  | 0, p => p
  | n + 1, p =>
      shiftUp m n { p with
        key := Function.update p.key (m + n + 1) (p.key (m + n))
        child := Function.update p.child (m + n + 2) (p.child (m + n + 1)) }

/-- `BTInsertPage`: put `kpromoted` with right child `ppromoted` at index `hi`.  A
    negative `hi` makes `ppromoted` the leftmost child, and the key of the old
    leftmost child is read out of that child. -/
def btInsertPage (current : BTPage) (hi : Int) (kpromoted : Nat) (ppromoted : BTPtr) :
    Option BTPage :=
  let p := shiftUp hi.toNat (current.count - hi.toNat) current
  if hi < 0 then
    match btGetObjKey (p.child 0) with
    | none => none
    | some k => some { p with
        key := Function.update p.key 0 k
        child := Function.update (Function.update p.child 1 (p.child 0)) 0 ppromoted
        count := p.count + 1 }
  else
    some { p with
      key := Function.update p.key hi.toNat kpromoted
      child := Function.update p.child (hi.toNat + 1) ppromoted
      count := p.count + 1 }

theorem shiftUp_key (m : Nat) :
    ∀ (n : Nat) (p : BTPage) (j : Nat),
      (shiftUp m n p).key j = if m < j ∧ j ≤ m + n then p.key (j - 1) else p.key j := by
  intro n
  induction n with
  | zero =>
    intro p j
    rw [if_neg (by omega)]; rfl
  | succ n ih =>
    intro p j
    simp only [shiftUp, ih, Function.update_apply]
    grind

theorem shiftUp_child (m : Nat) :
    ∀ (n : Nat) (p : BTPage) (j : Nat),
      (shiftUp m n p).child j =
        if m + 1 < j ∧ j ≤ m + n + 1 then p.child (j - 1) else p.child j := by
  intro n
  induction n with
  | zero =>
    intro p j
    rw [if_neg (by omega)]; rfl
  | succ n ih =>
    intro p j
    simp only [shiftUp, ih, Function.update_apply]
    grind

@[simp] theorem shiftUp_count (m n : Nat) (p : BTPage) : (shiftUp m n p).count = p.count := by
  induction n generalizing p with
  | zero => rfl
  | succ n ih => simp only [shiftUp, ih]

@[simp] theorem shiftUp_isleaf (m n : Nat) (p : BTPage) :
    (shiftUp m n p).isleaf = p.isleaf := by
  induction n generalizing p with
  | zero => rfl
  | succ n ih => simp only [shiftUp, ih]

/-- Key `j` of a page after `k` has been put in at `hi`; `k0` is the key of the old
    leftmost child, which becomes key `0` when `hi` is negative. -/
def insKey (key : Nat → Nat) (hi : Int) (k k0 j : Nat) : Nat :=
  if hi < 0 then (if j = 0 then k0 else key (j - 1))
  else if j < hi.toNat then key j
  else if j = hi.toNat then k
  else key (j - 1)

/-- Child `j` of a page after `p` has been put in to the right of index `hi`. -/
def insChild (child : Nat → BTPtr) (hi : Int) (p : BTPtr) (j : Nat) : BTPtr :=
  if j < (hi + 1).toNat then child j
  else if j = (hi + 1).toNat then p
  else child (j - 1)

/-- **`BTInsertPage`.**  The page gains one entry, at `hi`; everything above moves up
    by one. -/
theorem btInsertPage_spec (current : BTPage) (hi : Int) (k k0 : Nat) (p : BTPtr)
    (hlo : -1 ≤ hi) (_hhi : hi ≤ current.count)
    (hk0 : hi < 0 → btGetObjKey (current.child 0) = some k0) :
    ∃ q, btInsertPage current hi k p = some q ∧ q.count = current.count + 1 ∧
      q.isleaf = current.isleaf ∧
      (∀ j ≤ current.count, q.key j = insKey current.key hi k k0 j) ∧
      ∀ j ≤ current.count + 1, q.child j = insChild current.child hi p j := by
  unfold btInsertPage
  by_cases hneg : hi < 0
  · have hz : hi.toNat = 0 := by omega
    have hz' : (hi + 1).toNat = 0 := by omega
    have hc0 : (shiftUp hi.toNat (current.count - hi.toNat) current).child 0 =
        current.child 0 := by
      rw [shiftUp_child, if_neg (by omega)]
    simp only [if_pos hneg, hc0, hk0 hneg]
    refine ⟨_, rfl, by simp, by simp, ?_, ?_⟩
    · intro j hj
      simp only [Function.update_apply, shiftUp_key, insKey, hneg, if_true, hz]
      grind
    · intro j hj
      simp only [Function.update_apply, shiftUp_child, insChild, hz, hz']
      grind
  · have hz' : (hi + 1).toNat = hi.toNat + 1 := by omega
    simp only [if_neg hneg]
    refine ⟨_, rfl, by simp, by simp, ?_, ?_⟩
    · intro j hj
      simp only [Function.update_apply, shiftUp_key, insKey, hneg, if_false]
      grind
    · intro j hj
      simp only [Function.update_apply, shiftUp_child, insChild, hz']
      grind

/-! ### Splitting a full page -/

/-- The copying loop of the split, `n` iterations to go: entry `j` of the old page
    becomes entry `i` of the new one and is cleared. -/
def moveUp : Nat → Nat → Nat → BTPage → BTPage → BTPage × BTPage
  | 0, _, _, current, newpage => (current, newpage)
  | n + 1, i, j, current, newpage =>
      moveUp n (i + 1) (j + 1)
        { current with
          key := Function.update current.key j 0
          child := Function.update current.child (j + 1) .null }
        { newpage with
          key := Function.update newpage.key i (current.key j)
          child := Function.update newpage.child (i + 1) (current.child (j + 1)) }

/-- The loop `for (; i < BT_MAXKEY; i++)` that clears the rest of the new page,
    `n` iterations to go. -/
def clearRest : Nat → Nat → BTPage → BTPage
  | 0, _, p => p
  | n + 1, i, p =>
      clearRest n (i + 1) { p with
        key := Function.update p.key i 0
        child := Function.update p.child (i + 1) .null }

/-- The page a split works on: `BT_MINKEY` entries stay, the rest move to
    `newpage`, and one key (`kmed`) is lifted out between the two. -/
structure Split where
  current : BTPage
  newpage : BTPage
  kmed : Nat
  in_old : Bool

/-- The split of `BTInsert` up to the copying loop: fix the two counts, lift out the
    middle key, and hand the new page its leftmost child. -/
def splitStart (order : Nat) (current newpage : BTPage) (hi : Int) (kpromoted : Nat) :
    BTPage × BTPage × Nat :=
  let newpage := { newpage with isleaf := current.isleaf, count := maxKey order - minKey order }
  let current := { current with count := minKey order }
  let (current, newpage, kmed) :=
    if hi < (current.count : Int) then
      -- the promoted key goes to the left (original) page
      let current := { current with count := current.count - 1 }
      ({ current with key := Function.update current.key current.count 0 }, newpage,
        current.key current.count)
    else
      -- the promoted key goes to the right (new) page
      let newpage := { newpage with count := newpage.count - 1 }
      if hi = (current.count : Int) then
        (current, newpage, kpromoted)
      else
        ({ current with key := Function.update current.key current.count 0 }, newpage,
          current.key current.count)
  ({ current with child := Function.update current.child (current.count + 1) .null },
    { newpage with child := Function.update newpage.child 0 (current.child (current.count + 1)) },
    kmed)

/-- The part of `BTInsert` from the allocation of `newpage` to the insertion of the
    promoted entry: move the upper half of `current` to `newpage`. -/
def splitPage (order : Nat) (current newpage : BTPage) (hi : Int) (kpromoted : Nat) : Split :=
  let (current, newpage, kmed) := splitStart order current newpage hi kpromoted
  let (current, newpage) := moveUp newpage.count 0 (current.count + 1) current newpage
  { current := current
    newpage := clearRest (maxKey order - newpage.count) newpage.count newpage
    kmed := kmed
    in_old := decide (hi < (minKey order : Int)) }

/-- The rest of the split: the promoted entry goes to the half its index falls in.
    The result is the old page, the key to promote and the new page. -/
def splitInsert (order : Nat) (current newpage : BTPage) (hi : Int) (kpromoted : Nat)
    (ppromoted : BTPtr) : Option (BTPage × Nat × BTPage) :=
  let s := splitPage order current newpage hi kpromoted
  if s.in_old then
    match btInsertPage s.current hi kpromoted ppromoted with
    | none => none
    | some p => some (p, s.kmed, s.newpage)
  else
    match btInsertPage s.newpage (hi - ((s.current.count : Int) + 1)) kpromoted ppromoted with
    | none => none
    | some p => some (s.current, s.kmed, p)

theorem moveUp_spec :
    ∀ (n i j : Nat) (cur new : BTPage),
      ((moveUp n i j cur new).1.count = cur.count ∧
        (moveUp n i j cur new).1.isleaf = cur.isleaf ∧
        (∀ x < j, (moveUp n i j cur new).1.key x = cur.key x) ∧
        ∀ x ≤ j, (moveUp n i j cur new).1.child x = cur.child x) ∧
      (moveUp n i j cur new).2.count = new.count ∧
      (moveUp n i j cur new).2.isleaf = new.isleaf ∧
      (∀ x, (moveUp n i j cur new).2.key x =
        if i ≤ x ∧ x < i + n then cur.key (j + x - i) else new.key x) ∧
      ∀ x, (moveUp n i j cur new).2.child x =
        if i < x ∧ x ≤ i + n then cur.child (j + x - i) else new.child x := by
  intro n
  induction n with
  | zero =>
    intro i j cur new
    refine ⟨⟨rfl, rfl, fun _ _ => rfl, fun _ _ => rfl⟩, rfl, rfl, ?_, ?_⟩
    · intro x; rw [if_neg (by omega)]; rfl
    · intro x; rw [if_neg (by omega)]; rfl
  | succ n ih =>
    intro i j cur new
    simp only [moveUp]
    obtain ⟨⟨hc, hl, hk, hch⟩, hc', hl', hk', hch'⟩ := ih (i + 1) (j + 1)
      { cur with
        key := Function.update cur.key j 0
        child := Function.update cur.child (j + 1) .null }
      { new with
        key := Function.update new.key i (cur.key j)
        child := Function.update new.child (i + 1) (cur.child (j + 1)) }
    refine ⟨⟨hc, hl, ?_, ?_⟩, hc', hl', ?_, ?_⟩
    · intro x hx
      rw [hk x (by omega)]
      exact Function.update_of_ne (by omega) _ _
    · intro x hx
      rw [hch x (by omega)]
      exact Function.update_of_ne (by omega) _ _
    · intro x
      rw [hk']
      simp only [Function.update_apply]
      grind
    · intro x
      rw [hch']
      simp only [Function.update_apply]
      grind

theorem clearRest_spec :
    ∀ (n i : Nat) (p : BTPage),
      (clearRest n i p).count = p.count ∧ (clearRest n i p).isleaf = p.isleaf ∧
      (∀ x < i, (clearRest n i p).key x = p.key x) ∧
      ∀ x ≤ i, (clearRest n i p).child x = p.child x := by
  intro n
  induction n with
  | zero => intro i p; exact ⟨rfl, rfl, fun _ _ => rfl, fun _ _ => rfl⟩
  | succ n ih =>
    intro i p
    simp only [clearRest]
    obtain ⟨hc, hl, hk, hch⟩ := ih (i + 1) { p with
      key := Function.update p.key i 0
      child := Function.update p.child (i + 1) .null }
    refine ⟨hc, hl, ?_, ?_⟩
    · intro x hx
      rw [hk x (by omega)]
      exact Function.update_of_ne (by omega) _ _
    · intro x hx
      rw [hch x (by omega)]
      exact Function.update_of_ne (by omega) _ _

/-- `BT_ORDER` is odd and at least 5, as `b_plus_tree.h` requires of a definition. -/
structure ValidOrder (order : Nat) : Prop where
  odd : order % 2 = 1
  ge : 5 ≤ order

theorem ValidOrder.max_eq {order : Nat} (h : ValidOrder order) :
    maxKey order = 2 * minKey order := by
  have := h.odd
  simp only [maxKey, minKey]
  omega

theorem ValidOrder.two_le_min {order : Nat} (h : ValidOrder order) : 2 ≤ minKey order := by
  have := h.ge
  simp only [maxKey, minKey]
  omega

/-- How many keys stay in the old page before the promoted entry goes in. -/
def stay (order : Nat) (hi : Int) : Nat :=
  if hi < minKey order then minKey order - 1 else minKey order

theorem splitStart_spec {order : Nat} (ho : ValidOrder order) (current newpage : BTPage)
    (hi : Int) (k : Nat) :
    ∃ cur new, splitStart order current newpage hi k =
        (cur, new, if hi = minKey order then k else current.key (stay order hi)) ∧
      cur.count = stay order hi ∧ cur.isleaf = current.isleaf ∧
      (∀ x, x ≠ stay order hi → cur.key x = current.key x) ∧
      (∀ x, x ≠ stay order hi + 1 → cur.child x = current.child x) ∧
      new.count = maxKey order - 1 - stay order hi ∧ new.isleaf = current.isleaf ∧
      new.child 0 = current.child (stay order hi + 1) := by
  have hmax := ho.max_eq
  have hmin := ho.two_le_min
  unfold splitStart stay
  by_cases hlt : hi < minKey order
  · have hne : hi ≠ minKey order := by omega
    simp only [hlt, hne, if_true, if_false]
    refine ⟨_, _, rfl, rfl, rfl, ?_, ?_, ?_, rfl, rfl⟩
    · intro x hx; exact Function.update_of_ne hx _ _
    · intro x hx; exact Function.update_of_ne hx _ _
    · show maxKey order - minKey order = _
      omega
  · by_cases heq : hi = minKey order
    · simp only [heq, Int.lt_irrefl, if_true, if_false]
      refine ⟨_, _, rfl, rfl, rfl, fun _ _ => rfl, ?_, ?_, rfl, rfl⟩
      · intro x hx; exact Function.update_of_ne hx _ _
      · show maxKey order - minKey order - 1 = _
        omega
    · simp only [hlt, heq, if_false]
      refine ⟨_, _, rfl, rfl, rfl, ?_, ?_, ?_, rfl, rfl⟩
      · intro x hx; exact Function.update_of_ne hx _ _
      · intro x hx; exact Function.update_of_ne hx _ _
      · show maxKey order - minKey order - 1 = _
        omega

/-- What the two halves hold before the promoted entry goes in. -/
theorem splitPage_spec {order : Nat} (ho : ValidOrder order) (current newpage : BTPage)
    (hi : Int) (k : Nat) :
    ∃ s, splitPage order current newpage hi k = s ∧ s.in_old = decide (hi < minKey order) ∧
      (s.current.count = stay order hi ∧ s.current.isleaf = current.isleaf ∧
        (∀ x < stay order hi, s.current.key x = current.key x) ∧
        ∀ x ≤ stay order hi, s.current.child x = current.child x) ∧
      s.kmed = (if hi = minKey order then k else current.key (stay order hi)) ∧
      s.newpage.count = maxKey order - 1 - stay order hi ∧ s.newpage.isleaf = current.isleaf ∧
      (∀ x < maxKey order - 1 - stay order hi,
        s.newpage.key x = current.key (stay order hi + 1 + x)) ∧
      ∀ x ≤ maxKey order - 1 - stay order hi,
        s.newpage.child x = current.child (stay order hi + 1 + x) := by
  obtain ⟨cur, new, hs, hcount, hleaf, hkey, hchild, hncount, hnleaf, hnchild⟩ :=
    splitStart_spec ho current newpage hi k
  obtain ⟨⟨hc, hl, hk, hch⟩, hc', hl', hk', hch'⟩ :=
    moveUp_spec new.count 0 (cur.count + 1) cur new
  obtain ⟨rc, rl, rk, rch⟩ := clearRest_spec
    (maxKey order - (moveUp new.count 0 (cur.count + 1) cur new).2.count)
    (moveUp new.count 0 (cur.count + 1) cur new).2.count
    (moveUp new.count 0 (cur.count + 1) cur new).2
  refine ⟨_, rfl, ?_⟩
  simp only [splitPage, hs]
  refine ⟨trivial, ⟨by rw [hc, hcount], by rw [hl, hleaf], ?_, ?_⟩, trivial,
    by rw [rc, hc', hncount], by rw [rl, hl', hnleaf], ?_, ?_⟩
  · intro x hx
    rw [hk x (by omega), hkey x (by omega)]
  · intro x hx
    rw [hch x (by omega), hchild x (by omega)]
  · intro x hx
    rw [rk x (by omega), hk', if_pos (by omega), hkey _ (by omega)]
    congr 1
    omega
  · intro x hx
    rw [rch x (by omega), hch']
    by_cases h0 : x = 0
    · subst h0
      rw [if_neg (by omega), hnchild, Nat.add_zero]
    · rw [if_pos (by omega), hchild _ (by omega)]
      congr 1
      omega

/-- The two halves of a page that is split: the lower and the upper part of the page that
    inserting the promoted entry into an unbounded page would give, and the key in the middle.
    The one exception is the first key of the new page when the promoted entry falls exactly in
    the middle: `BTInsertPage` reads it out of the child to its right (`km`). -/
structure Halves (order : Nat) (current : BTPage) (hi : Int) (k k0 km : Nat) (p : BTPtr)
    (l : BTPage) (kmed : Nat) (r : BTPage) : Prop where
  left_count : l.count = minKey order
  left_leaf : l.isleaf = current.isleaf
  right_count : r.count = minKey order
  right_leaf : r.isleaf = current.isleaf
  left_key : ∀ j < minKey order, l.key j = insKey current.key hi k k0 j
  left_child : ∀ j ≤ minKey order, l.child j = insChild current.child hi p j
  median : kmed = insKey current.key hi k k0 (minKey order)
  right_key : ∀ j < minKey order, r.key j =
    if hi = minKey order ∧ j = 0 then km else insKey current.key hi k k0 (minKey order + 1 + j)
  right_child : ∀ j ≤ minKey order, r.child j = insChild current.child hi p (minKey order + 1 + j)

section

variable {order : Nat} {hi : Int} {k0 km : Nat}

/-- The left page takes the entry. -/
theorem splitInsert_left (ho : ValidOrder order) (current newpage : BTPage) (k : Nat) (p : BTPtr)
    (hlo : -1 ≤ hi) (hlt : hi < minKey order)
    (hk0 : hi < 0 → btGetObjKey (current.child 0) = some k0) :
    ∃ l kmed r, splitInsert order current newpage hi k p = some (l, kmed, r) ∧
      Halves order current hi k k0 km p l kmed r := by
  have hmax := ho.max_eq
  have hmin := ho.two_le_min
  obtain ⟨s, hs, hin, ⟨hc, hl, hk, hch⟩, hmed, hnc, hnl, hnk, hnch⟩ :=
    splitPage_spec ho current newpage hi k
  have hstay : stay order hi = minKey order - 1 := if_pos hlt
  rw [hstay] at hc hk hch hmed hnc hnk hnch
  obtain ⟨q, hq, hqc, hql, hqk, hqch⟩ := btInsertPage_spec s.current hi k k0 p hlo
    (by omega)
    (fun h => by rw [hch 0 (by omega)]; exact hk0 h)
  simp only [splitInsert, hs, hin, hlt, decide_true, if_true, hq]
  refine ⟨q, s.kmed, s.newpage, rfl, by omega, by rw [hql, hl], by omega, hnl, ?_, ?_, ?_, ?_, ?_⟩
  · intro j hj
    rw [hqk j (by omega)]
    simp only [insKey]
    grind
  · intro j hj
    rw [hqch j (by omega)]
    simp only [insChild]
    grind
  · rw [hmed, if_neg (by omega)]
    simp only [insKey]
    grind
  · intro j hj
    rw [hnk j (by omega), if_neg (by omega)]
    simp only [insKey]
    grind
  · intro j hj
    rw [hnch j (by omega)]
    simp only [insChild]
    grind

/-- The right page takes the entry, at its very left when `hi` is the middle. -/
theorem splitInsert_right (ho : ValidOrder order) (current newpage : BTPage) (k : Nat) (p : BTPtr)
    (hge : ¬ hi < minKey order) (hhi : hi ≤ maxKey order)
    (hkm : hi = minKey order → btGetObjKey (current.child (minKey order + 1)) = some km) :
    ∃ l kmed r, splitInsert order current newpage hi k p = some (l, kmed, r) ∧
      Halves order current hi k k0 km p l kmed r := by
  have hmax := ho.max_eq
  have hmin := ho.two_le_min
  obtain ⟨s, hs, hin, ⟨hc, hl, hk, hch⟩, hmed, hnc, hnl, hnk, hnch⟩ :=
    splitPage_spec ho current newpage hi k
  have hstay : stay order hi = minKey order := if_neg hge
  rw [hstay] at hc hk hch hmed hnc hnk hnch
  have hc0 : s.newpage.child 0 = current.child (minKey order + 1) := by
    rw [hnch 0 (by omega), Nat.add_zero]
  obtain ⟨q, hq, hqc, hql, hqk, hqch⟩ := btInsertPage_spec s.newpage
    (hi - ((s.current.count : Int) + 1)) k km p (by omega) (by omega)
    (fun h => by rw [hc0]; exact hkm (by omega))
  simp only [splitInsert, hs, hin, hge, decide_false, Bool.false_eq_true, if_false, hq]
  refine ⟨s.current, s.kmed, q, rfl, by omega, hl, by omega, by rw [hql, hnl], ?_, ?_, ?_, ?_, ?_⟩
  · intro j hj
    rw [hk j hj]
    simp only [insKey]
    grind
  · intro j hj
    rw [hch j hj]
    simp only [insChild]
    grind
  · rw [hmed]
    simp only [insKey]
    grind
  · intro j hj
    have hprev : 0 < j → s.newpage.key (j - 1) = current.key (minKey order + j) := fun h => by
      rw [hnk (j - 1) (by omega)]; congr 1; omega
    rw [hqk j (by omega), hc]
    simp only [insKey]
    grind
  · intro j hj
    have hprev : 0 < j → s.newpage.child (j - 1) = current.child (minKey order + j) := fun h => by
      rw [hnch (j - 1) (by omega)]; congr 1; omega
    rw [hqch j (by omega), hc]
    simp only [insChild]
    grind

/-- **The split.** -/
theorem splitInsert_spec (ho : ValidOrder order) (current newpage : BTPage) (k : Nat) (p : BTPtr)
    (hcount : current.count = maxKey order) (hlo : -1 ≤ hi) (hhi : hi ≤ current.count)
    (hk0 : hi < 0 → btGetObjKey (current.child 0) = some k0)
    (hkm : hi = minKey order → btGetObjKey (current.child (minKey order + 1)) = some km) :
    ∃ l kmed r, splitInsert order current newpage hi k p = some (l, kmed, r) ∧
      Halves order current hi k k0 km p l kmed r := by
  rw [hcount] at hhi
  by_cases hlt : hi < minKey order
  · exact splitInsert_left ho current newpage k p hlo hlt hk0
  · exact splitInsert_right ho current newpage k p hlt hhi hkm

end

end FreeVMS.BTree
