import FreeVMS.BTree.Page

/-!
# Search and insertion in the object-table B+tree

`ObjBTSearch`, `BTInsert` and `ObjBTIns` of `sys_btree.c`.  Pages are changed in
place in the source; since no page has two parents, the model returns the changed
page and the caller stores it back in the slot it came from.

`none` is the model's answer where the source would follow a null or mistyped
pointer.
-/

namespace FreeVMS.BTree

/-! ### The binary searches -/

/-- The inner loop of `ObjBTSearch`: the child to descend to.  `fuel` bounds the
    iterations; the interval `[lo, hi)` shrinks in each of them. -/
def searchIndex (key : Nat → Nat) (k : Nat) : Nat → Nat → Nat → Nat
  | 0, _, hi => hi
  | fuel + 1, lo, hi =>
      if lo < hi then
        let mid := (lo + hi) / 2
        if key mid = k then mid + 1
        else if key mid > k then searchIndex key k fuel lo mid
        else searchIndex key k fuel (mid + 1) hi
      else hi

/-- The search loop of `BTInsert`, which gives up on an equal key. -/
def insertIndex (key : Nat → Nat) (k : Nat) : Nat → Nat → Nat → Option Nat
  | 0, _, hi => some hi
  | fuel + 1, lo, hi =>
      if lo < hi then
        let mid := (lo + hi) / 2
        if key mid = k then none
        else if key mid > k then insertIndex key k fuel lo mid
        else insertIndex key k fuel (mid + 1) hi
      else some hi

/-- The descent of `ObjBTSearch` from a page to the object in the leaf slot. -/
def searchPage (k : Nat) : BTPtr → Option Memsection
  | .page count isleaf _ key child =>
      let hi := searchIndex key k count 0 count
      if isleaf then
        match child hi with
        | .obj o => some o
        | _ => none
      else searchPage k (child hi)
  | _ => none

/-- `BTree_S`, without the pool it points to. -/
structure BTreeS where
  depth : Nat
  root : BTPtr

/-- `ObjBTSearch`: the status, and the object stored through `obj` (`none` when it is
    left alone). -/
def objBTSearch (btree : Option BTreeS) (k : Nat) : Option (BTStatus × Option Memsection) :=
  match btree with
  | none => some (.invalid, none)
  | some t =>
      match t.root with
      | .null => some (.notFound, none)
      | root =>
          match searchPage k root with
          | none => none
          | some o => some (if btObjMatch o k then .ok else .notFound, some o)

/-! ### Insertion -/

/-- The source of fresh pages.  `grant i` is the answer to the `i`-th request: `none`
    when it fails, otherwise the padding bytes of the page that is handed out; every
    other field of a page is written before it is read. -/
structure PagePool where
  grant : Nat → Option Nat
  asked : Nat

/-- `ObjAllocPage`. -/
def objAllocPage (pool : PagePool) : Option BTPage × PagePool :=
  ((pool.grant pool.asked).map fun pad =>
      { count := 0, isleaf := false, pad := pad, key := fun _ => 0, child := fun _ => .null },
    { pool with asked := pool.asked + 1 })

/-- The return value of `BTInsert`, with the out-parameters that belong to it. -/
inductive BTResult where
  | refused (status : BTStatus)
  | ok
  | promotion (kpromoted : Nat) (ppromoted : BTPtr)

/-- The return code alone. -/
def BTResult.status : BTResult → BTStatus
  | .refused s => s
  | .ok => .ok
  | .promotion _ _ => .promotion

structure BTOut where
  result : BTResult
  current : BTPtr
  ngb : BTPtr
  pool : PagePool

/-- The end of `BTInsert`: place a promoted entry in `current`, splitting it when it
    is full. -/
def btPlace (order : Nat) (current : BTPage) (hi : Int) (kpromoted : Nat) (ppromoted : BTPtr)
    (ngb : BTPtr) (pool : PagePool) : Option BTOut :=
  if current.count < maxKey order then
    match btInsertPage current hi kpromoted ppromoted with
    | none => none
    | some p => some ⟨.ok, p.ptr, ngb, pool⟩
  else
    match objAllocPage pool with
    | (none, pool) => some ⟨.refused .allocFail, current.ptr, ngb, pool⟩
    | (some newpage, pool) =>
        match splitInsert order current newpage hi kpromoted ppromoted with
        | none => none
        | some (l, kmed, r) => some ⟨.promotion kmed r.ptr, l.ptr, ngb, pool⟩

/-- `BTInsert`. -/
def btInsert (order : Nat) (obj : Memsection) : BTPtr → BTPtr → PagePool → Option BTOut
  | .null, ngb, pool => some ⟨.promotion obj.base .null, .null, ngb, pool⟩
  | .obj _, _, _ => none
  | .page count isleaf pad key child, ngb, pool =>
      match insertIndex key obj.base count 0 count with
      | none => some ⟨.refused .duplicate, .page count isleaf pad key child, ngb, pool⟩
      | some hi =>
          if hi < count ∧ btObjMatch obj (key hi) then
            some ⟨.refused .overlap, .page count isleaf pad key child, ngb, pool⟩
          else if isleaf then
            match child hi with
            | .obj c =>
                if btObjMatch c obj.base ∨ (hi = 0 ∧ btOverlaps obj c) then
                  some ⟨.refused .overlap, .page count isleaf pad key child, ngb, pool⟩
                else
                  -- smaller than everything in the leftmost leaf: becomes child 0
                  btPlace order ⟨count, isleaf, pad, key, child⟩
                    (if hi = 0 ∧ obj.base < c.base then -1 else hi)
                    obj.base (.obj obj) (.obj c) pool
            | _ => none
          else
            match btInsert order obj (child hi) ngb pool with
            | none => none
            | some r =>
                match r.result with
                | .promotion k p =>
                    btPlace order
                      ⟨count, isleaf, pad, key, Function.update child hi r.current⟩ hi k p
                      r.ngb r.pool
                | res =>
                    some ⟨res, .page count isleaf pad key (Function.update child hi r.current),
                      r.ngb, r.pool⟩

structure InsOut where
  status : BTStatus
  btree : BTreeS
  ngb : BTPtr
  pool : PagePool

/-- The root that `ObjBTIns` puts over the two halves of the old one. -/
def growRoot (newroot : BTPage) (kpromoted : Nat) (root ppromoted : BTPtr) : BTPage :=
  { newroot with
    count := 1
    isleaf := false
    key := Function.update (fun _ => 0) 0 kpromoted
    child := Function.update (Function.update (fun _ => .null) 0 root) 1 ppromoted }

/-- `ObjBTIns`, past the test of the tree pointer (`BT_INVALID` on a null one).  Whatever
    `BTInsert` returned, the last statement is `return(0)`. -/
def objBTIns (order : Nat) (t : BTreeS) (obj : Memsection) (ngb : BTPtr) (pool : PagePool) :
    Option InsOut :=
  match t.root with
  | .null =>
      match objAllocPage pool with
      | (none, pool) => some ⟨.allocFail, t, ngb, pool⟩
      | (some newroot, pool) =>
          let newroot : BTPage := { newroot with
            count := 0, isleaf := true, key := fun _ => 0
            child := Function.update (fun _ => .null) 0 (.obj obj) }
          some ⟨.ok, { depth := 1, root := newroot.ptr }, .null, pool⟩
  | root =>
      match btInsert order obj root ngb pool with
      | none => none
      | some r =>
          match r.result with
          | .promotion k p =>
              match objAllocPage r.pool with
              | (none, pool) => some ⟨.allocFail, { t with root := r.current }, r.ngb, pool⟩
              | (some newroot, pool) =>
                  some ⟨.ok, { depth := t.depth + 1, root := (growRoot newroot k r.current p).ptr },
                    r.ngb, pool⟩
          | _ => some ⟨.ok, { t with root := r.current }, r.ngb, r.pool⟩

/-! ### What an insertion meets on its way down

Predicates on the tree before the call, along the path the binary search takes. -/

section Path

variable (order : Nat) (obj : Memsection)

/-- The first duplicate or overlap test on the path that fires, by its status code. -/
def refusal : BTPtr → Option BTStatus
  | .page count isleaf _ key child =>
      match insertIndex key obj.base count 0 count with
      | none => some .duplicate
      | some hi =>
          if hi < count ∧ btObjMatch obj (key hi) then some .overlap
          else if isleaf then
            match child hi with
            | .obj c =>
                if btObjMatch c obj.base ∨ (hi = 0 ∧ btOverlaps obj c) then some .overlap else none
            | _ => none
          else refusal (child hi)
  | _ => none

/-- The page is full and the entry to place reaches it. -/
def splits : BTPtr → Bool
  | .page count isleaf _ key child =>
      !decide (count < maxKey order) &&
        (isleaf ||
          match insertIndex key obj.base count 0 count with
          | none => false
          | some hi => splits (child hi))
  | _ => false

/-- How many pages on the path have to be split. -/
def splitCount : BTPtr → Nat
  | .page count isleaf _ key child =>
      if isleaf then (if count < maxKey order then 0 else 1)
      else
        match insertIndex key obj.base count 0 count with
        | none => 0
        | some hi =>
            splitCount (child hi) +
              if !decide (count < maxKey order) && splits order obj (child hi) then 1 else 0
  | _ => 0

/-- An inner page on the path has to be split. -/
def innerSplit : BTPtr → Bool
  | .page count isleaf _ key child =>
      !isleaf &&
        match insertIndex key obj.base count 0 count with
        | none => false
        | some hi =>
            (!decide (count < maxKey order) && splits order obj (child hi)) ||
              innerSplit (child hi)
  | _ => false

/-- An inner page on the path has to be split, and the promoted key falls exactly in
    the middle of it. -/
def medianSplit : BTPtr → Bool
  | .page count isleaf _ key child =>
      !isleaf &&
        match insertIndex key obj.base count 0 count with
        | none => false
        | some hi =>
            (!decide (count < maxKey order) && splits order obj (child hi) &&
                decide (hi = minKey order)) ||
              medianSplit (child hi)
  | _ => false

end Path

end FreeVMS.BTree
