import FreeVMS.Lib.LinkChain
import FreeVMS.Lib.Run
import FreeVMS.Thread.Hash
import Mathlib.Data.List.Perm.Subperm

/-!
# The hash table in memory

The functions of `sys_hash.c` on the entries that the heap has given out: a bucket is the chain
of entries that begins at its cell of `table`.  The table holds a stack of bindings for each
key, whatever `hash_hash` computes; the lists of `Thread/Hash.lean` are what the chains hold.
-/

namespace FreeVMS.Thread.Chained

open Run LinkChain

/-- `struct hashentry`; 0 is `NULL`. -/
structure HashEntry extends Entry where
  next : Nat
deriving DecidableEq, Repr

/-- `struct hashtable` and the entries.  `live` are those that `sys$alloc` has given out. -/
structure HashMem where
  size : Nat
  table : List Nat
  entry : Nat → HashEntry
  live : List Nat

inductive Fault where
  /-- `PANIC` -/
  | panic
  /-- there is no such cell in `table` -/
  | index (i : Nat)
  /-- an entry is used or freed that was not allocated -/
  | dead (p : Nat)
  /-- a loop does not end -/
  | diverge
deriving DecidableEq, Repr

namespace HashMem

/-- `tablestruct->table[i]` -/
def cell (t : HashMem) (i : Nat) : Except Fault Nat :=
  match t.table[i]? with
  | some p => .ok p
  | none => .error (.index i)

def setCell (t : HashMem) (i p : Nat) : Except Fault HashMem :=
  if i < t.table.length then .ok { t with table := t.table.set i p } else .error (.index i)

def load (t : HashMem) (p : Nat) : Except Fault HashEntry :=
  if p ∈ t.live then .ok (t.entry p) else .error (.dead p)

def store (t : HashMem) (p : Nat) (e : HashEntry) : Except Fault HashMem :=
  if p ∈ t.live then .ok { t with entry := Function.update t.entry p e } else .error (.dead p)

/-- `sys$alloc` answers `p`. -/
def alloc (t : HashMem) (p : Nat) : HashMem := { t with live := p :: t.live }

/-- `sys$free` -/
def free (t : HashMem) (p : Nat) : Except Fault HashMem :=
  if p ∈ t.live then .ok { t with live := t.live.filter (· ≠ p) } else .error (.dead p)

/-- `tablestruct->size - 1`, an `unsigned int`. -/
def mask (t : HashMem) : Nat := (t.size + 2 ^ 32 - 1) % 2 ^ 32

/-- `p && (p->key == key)` -/
def hasKey (t : HashMem) (p key : Nat) : Except Fault Bool :=
  if p = 0 then .ok false else do
    let e ← t.load p
    return e.key = key

end HashMem

/-- `hash_init`; `sys$alloc` answers with a table that holds `old`. -/
def hashInit (size : Nat) (old : List Nat) : Except Fault HashMem :=
  let t : HashMem := ⟨size, old, fun _ => ⟨⟨0, 0⟩, 0⟩, []⟩
  if size &&& t.mask ≠ 0 then .error .panic
  else (List.range size).foldlM (fun t counter => t.setCell counter 0) t

section

variable (hash : Nat → Nat)

/-- `hash_hash(key) & (tablestruct->size - 1)`, where `hash` is `hash_hash`. -/
def HashMem.index (t : HashMem) (key : Nat) : Nat := hash key &&& t.mask

/-- The loop of `hash_remove`.  A chain that is longer than there are entries is a ring. -/
def removeLoop (key : Nat) : Nat → HashMem → Nat → Except Fault HashMem
  | 0, _, _ => .error .diverge
  | fuel + 1, t, entry =>
      if entry = 0 then .ok t else do
        let e ← t.load entry
        if ← t.hasKey e.next key then
          let tmpentry ← t.load e.next
          let t ← t.store entry { e with next := tmpentry.next }
          t.free e.next
        else removeLoop key fuel t e.next

/-- `hash_remove` -/
def hashRemove (t : HashMem) (key : Nat) : Except Fault HashMem := do
  let entry ← t.cell (t.index hash key)
  if ← t.hasKey entry key then
    let e ← t.load entry
    let t' ← t.free entry
    t'.setCell (t.index hash key) e.next
  else removeLoop key (t.live.length + 1) t entry

/-- The loop of `hash_lookup`. -/
def lookupLoop (key : Nat) : Nat → HashMem → Nat → Except Fault Nat
  | 0, _, _ => .error .diverge
  | fuel + 1, t, entry =>
      if entry = 0 then .ok 0 else do
        let e ← t.load entry
        if e.key = key then return e.value else lookupLoop key fuel t e.next

/-- `hash_lookup` -/
def hashLookup (t : HashMem) (key : Nat) : Except Fault Nat := do
  let entry ← t.cell (t.index hash key)
  lookupLoop key (t.live.length + 1) t entry

/-- `hash_insert`, where `sys$alloc` answers `p`. -/
def hashInsert (t : HashMem) (key value p : Nat) : Except Fault (HashMem × Int) :=
  if p = 0 then .ok (t, -1) else do
    let t := t.alloc p
    let head ← t.cell (t.index hash key)
    let t' ← t.store p ⟨⟨key, value⟩, head⟩
    let t'' ← t'.setCell (t.index hash key) p
    return (t'', 0)

/-- A call; an insertion comes with the answer of `sys$alloc`. -/
inductive HashOp where
  | insert (key value p : Nat)
  | remove (key : Nat)
  | lookup (key : Nat)
deriving DecidableEq, Repr

/-- The table and the answers of the lookups so far. -/
structure HashRun where
  mem : HashMem
  answers : List Nat

def step : HashOp → HashRun → Except Fault HashRun
  | .insert key value p, s => do
      let r ← hashInsert hash s.mem key value p
      return { s with mem := r.1 }
  | .remove key, s => do
      let t ← hashRemove hash s.mem key
      return { s with mem := t }
  | .lookup key, s => do
      let value ← hashLookup hash s.mem key
      return { s with answers := s.answers ++ [value] }

end

/-- `sys$alloc` succeeds, with room that is not in use. -/
def Fresh : HashOp → HashRun → Prop
  | .insert _ _ p, s => p ≠ 0 ∧ p ∉ s.mem.live
  | _, _ => True

instance : ∀ op s, Decidable (Fresh op s)
  | .insert .., _ => inferInstanceAs (Decidable (_ ∧ _))
  | .remove _, _ => isTrue trivial
  | .lookup _, _ => isTrue trivial

/-! ### Stacks of bindings -/

/-- A stack of values for each key, and the answers of the lookups so far. -/
structure Stacks where
  bindings : Nat → List Nat
  answers : List Nat

def Stacks.empty : Stacks := ⟨fun _ => [], []⟩

/-- What a call is for: a binding is put on top, the top one is dropped, the top one is told. -/
def Stacks.step (s : Stacks) : HashOp → Stacks
  | .insert key value _ =>
      { s with bindings := Function.update s.bindings key (value :: s.bindings key) }
  | .remove key => { s with bindings := Function.update s.bindings key (s.bindings key).tail }
  | .lookup key => { s with answers := s.answers ++ [(s.bindings key).headD 0] }

/-! ### The chains -/

/-- The links of the entries. -/
def HashMem.next (t : HashMem) (p : Nat) : Nat := (t.entry p).next

/-- What the entries at these addresses hold. -/
def HashMem.bucket (t : HashMem) (l : List Nat) : List Entry := l.map fun p => (t.entry p).toEntry

/-- Every cell of `table` begins a chain of its own. -/
structure Chains (t : HashMem) (chain : Nat → List Nat) : Prop where
  pos : 1 ≤ t.size
  length : t.table.length = t.size
  linked : ∀ i p, t.table[i]? = some p → Chain t.next 0 p (chain i)
  live : ∀ i, ∀ q ∈ chain i, q ∈ t.live
  nodup : ∀ i, (chain i).Nodup
  apart : ∀ i j q, q ∈ chain i → q ∈ chain j → i = j

/-- The table holds these bindings. -/
def Holds (hash : Nat → Nat) (t : HashMem) (bindings : Nat → List Nat) : Prop :=
  ∃ chain, Chains t chain ∧
    ∀ key, valuesOf key (t.bucket (chain (t.index hash key))) = bindings key

/-- From `t` to `t'`, the chain of the entries `l` has become that of `l'`. -/
structure Rebuilt (t t' : HashMem) (l l' : List Nat) : Prop where
  nodup : l'.Nodup
  source : ∀ q ∈ l', q ∈ l ∨ q ∉ t.live
  live : ∀ q ∈ l', q ∈ t'.live
  keeps : ∀ q ∈ t.live, q ∉ l → q ∈ t'.live
  frame : ∀ q ∈ t.live, q ∉ l → t'.entry q = t.entry q

section

variable {hash : Nat → Nat} {t t' : HashMem} {chain : Nat → List Nat} {key i p x : Nat}
  {l l' r : List Nat} {bindings bindings' : Nat → List Nat}

theorem HashMem.cell_ok (h : t.table[i]? = some p) : t.cell i = .ok p := by
  rw [HashMem.cell, h]

theorem HashMem.setCell_ok (h : i < t.table.length) :
    t.setCell i p = .ok { t with table := t.table.set i p } := if_pos h

theorem HashMem.load_ok (h : p ∈ t.live) : t.load p = .ok (t.entry p) := if_pos h

theorem HashMem.store_ok {e : HashEntry} (h : p ∈ t.live) :
    t.store p e = .ok { t with entry := Function.update t.entry p e } := if_pos h

theorem HashMem.free_ok (h : p ∈ t.live) :
    t.free p = .ok { t with live := t.live.filter (· ≠ p) } := if_pos h

theorem HashMem.hasKey_live (hp : p ≠ 0) (h : p ∈ t.live) :
    t.hasKey p key = .ok (decide ((t.entry p).key = key)) := by
  rw [HashMem.hasKey, if_neg hp, HashMem.load_ok h]
  rfl

/-- The links after an entry has been changed. -/
theorem HashMem.next_update {e : HashEntry} {size : Nat} {table live : List Nat} :
    HashMem.next ⟨size, table, Function.update t.entry x e, live⟩ =
      Function.update t.next x e.next := by
  funext q
  show (Function.update t.entry x e q).next = _
  by_cases h : q = x
  · rw [h, Function.update_self, Function.update_self]
  · rw [Function.update_of_ne h, Function.update_of_ne h]
    rfl

theorem HashMem.bucket_congr (h : ∀ q ∈ l, t'.entry q = t.entry q) : t'.bucket l = t.bucket l :=
  List.map_congr_left fun q hq => by rw [h q hq]

theorem mask_lt (h : 1 ≤ t.size) : t.mask < t.size := by
  show (t.size + 2 ^ 32 - 1) % 2 ^ 32 < t.size
  omega

theorem Chains.index_lt (h : Chains t chain) : t.index hash key < t.size :=
  lt_of_le_of_lt Nat.and_le_right (mask_lt h.pos)

/-- The chain of a key. -/
theorem Chains.at_key (h : Chains t chain) (hash : Nat → Nat) (key : Nat) :
    ∃ p, t.cell (t.index hash key) = .ok p ∧ t.table[t.index hash key]? = some p ∧
      Chain t.next 0 p (chain (t.index hash key)) := by
  have hlt : t.index hash key < t.table.length := h.length ▸ h.index_lt
  have hcell := List.getElem?_eq_getElem hlt
  exact ⟨_, HashMem.cell_ok hcell, hcell, h.linked _ _ hcell⟩

/-- No chain is longer than there are entries. -/
theorem Chains.length_le (h : Chains t chain) (i : Nat) : (chain i).length ≤ t.live.length :=
  ((h.nodup i).subperm (h.live i)).length_le

/-- One chain is rebuilt; the others stay. -/
theorem Chains.rebuild (h : Chains t chain) (hsize : t'.size = t.size)
    (htable : t'.table = t.table.set i p) (hlinked : Chain t'.next 0 p l')
    (hl : Rebuilt t t' (chain i) l') :
    Chains t' (Function.update chain i l') ∧ ∀ j ≠ i, t'.bucket (chain j) = t.bucket (chain j) := by
  have hother : ∀ j ≠ i, ∀ q ∈ chain j, q ∉ chain i :=
    fun j hj q hq hq' => hj (h.apart j i q hq hq')
  have hframe : ∀ j ≠ i, ∀ q ∈ chain j, t'.entry q = t.entry q :=
    fun j hj q hq => hl.frame q (h.live j q hq) (hother j hj q hq)
  have hnew : ∀ j ≠ i, ∀ q ∈ chain j, q ∉ l' := by
    intro j hj q hq hq'
    rcases hl.source q hq' with hold | hdead
    · exact hother j hj q hq hold
    · exact hdead (h.live j q hq)
  refine ⟨⟨hsize ▸ h.pos, ?_, ?_, ?_, ?_, ?_⟩, fun j hj => HashMem.bucket_congr (hframe j hj)⟩
  · rw [htable, List.length_set, h.length, hsize]
  · intro j p' hp'
    rw [htable] at hp'
    by_cases hj : j = i
    · subst hj
      rw [List.getElem?_set_self (by simpa using (List.getElem?_eq_some_iff.mp hp').1)] at hp'
      obtain rfl := Option.some.inj hp'
      rw [Function.update_self]
      exact hlinked
    · rw [List.getElem?_set_ne (Ne.symm hj)] at hp'
      rw [Function.update_of_ne hj]
      exact (h.linked j p' hp').congr fun q hq => congrArg HashEntry.next (hframe j hj q hq)
  · intro j q hq
    by_cases hj : j = i
    · subst hj
      rw [Function.update_self] at hq
      exact hl.live q hq
    · rw [Function.update_of_ne hj] at hq
      exact hl.keeps q (h.live j q hq) (hother j hj q hq)
  · intro j
    by_cases hj : j = i
    · subst hj
      rw [Function.update_self]
      exact hl.nodup
    · rw [Function.update_of_ne hj]
      exact h.nodup j
  · intro j k q hq hq'
    by_cases hj : j = i
    · by_cases hk : k = i
      · rw [hj, hk]
      · rw [hj, Function.update_self] at hq
        rw [Function.update_of_ne hk] at hq'
        exact absurd hq (hnew k hk q hq')
    · rw [Function.update_of_ne hj] at hq
      by_cases hk : k = i
      · rw [hk, Function.update_self] at hq'
        exact absurd hq' (hnew j hj q hq)
      · rw [Function.update_of_ne hk] at hq'
        exact h.apart j k q hq hq'

/-- The bindings after the chain of `key` has been rebuilt. -/
theorem Chains.holds_rebuild (h : Chains t chain)
    (hbind : ∀ k, valuesOf k (t.bucket (chain (t.index hash k))) = bindings k)
    (hl : Rebuilt t t' (chain (t.index hash key)) l') (hsize : t'.size = t.size)
    (htable : t'.table = t.table.set (t.index hash key) p) (hlinked : Chain t'.next 0 p l')
    {vs : List Nat} (hself : valuesOf key (t'.bucket l') = vs)
    (hother : ∀ k ≠ key,
      valuesOf k (t'.bucket l') = valuesOf k (t.bucket (chain (t.index hash key)))) :
    Holds hash t' (Function.update bindings key vs) := by
  obtain ⟨hchains, hframe⟩ := h.rebuild hsize htable hlinked hl
  have hindex : ∀ k, t'.index hash k = t.index hash k := fun k => by
    rw [HashMem.index, HashMem.index, HashMem.mask, HashMem.mask, hsize]
  refine ⟨_, hchains, fun k => ?_⟩
  rw [hindex]
  by_cases hk : k = key
  · rw [hk, Function.update_self, Function.update_self]
    exact hself
  · rw [Function.update_of_ne hk]
    by_cases hslot : t.index hash k = t.index hash key
    · rw [hslot, Function.update_self, hother k hk, ← hslot]
      exact hbind k
    · rw [Function.update_of_ne hslot, hframe _ hslot]
      exact hbind k

/-! ### The calls -/

/-- The entry behind `x`, which is `y`, is taken out and freed. -/
def HashMem.unlink (t : HashMem) (x y : Nat) : HashMem :=
  { t with
    entry := Function.update t.entry x { t.entry x with next := t.next y }
    live := t.live.filter (· ≠ y) }

/-- A new entry `p` is put in front of a chain that begins at `head`, in the cell `i`. -/
def HashMem.push (t : HashMem) (i head key value p : Nat) : HashMem :=
  { t with
    table := t.table.set i p
    entry := Function.update t.entry p ⟨⟨key, value⟩, head⟩
    live := p :: t.live }

theorem mem_filter_ne {live : List Nat} {q y : Nat} (hq : q ∈ live) (hne : q ≠ y) :
    q ∈ live.filter (· ≠ y) :=
  List.mem_filter.mpr ⟨hq, decide_eq_true hne⟩

theorem Rebuilt.refl (hnodup : l.Nodup) (hlive : ∀ q ∈ l, q ∈ t.live) : Rebuilt t t l l :=
  ⟨hnodup, fun _ hq => .inl hq, hlive, fun _ hq _ => hq, fun _ _ _ => rfl⟩

/-- An entry in front that stays. -/
theorem Rebuilt.cons (h : Rebuilt t t' l l') (hx : x ∈ t.live) (hxl : x ∉ l) :
    Rebuilt t t' (x :: l) (x :: l') := by
  refine ⟨List.nodup_cons.mpr ⟨fun hmem => ?_, h.nodup⟩, fun q hq => ?_, fun q hq => ?_,
    fun q hq hne => h.keeps q hq fun hmem => hne (List.mem_cons_of_mem _ hmem),
    fun q hq hne => h.frame q hq fun hmem => hne (List.mem_cons_of_mem _ hmem)⟩
  · rcases h.source x hmem with hold | hdead
    · exact hxl hold
    · exact hdead hx
  · rcases List.mem_cons.mp hq with rfl | hq
    · exact .inl List.mem_cons_self
    · exact (h.source q hq).imp_left (List.mem_cons_of_mem _)
  · rcases List.mem_cons.mp hq with rfl | hq
    · exact h.keeps q hx hxl
    · exact h.live q hq

/-- The first entry is freed. -/
theorem Rebuilt.tail (hnodup : (x :: l).Nodup) (hlive : ∀ q ∈ x :: l, q ∈ t.live)
    (htlive : t'.live = t.live.filter (· ≠ x))
    (hentry : ∀ q ∈ t.live, q ∉ x :: l → t'.entry q = t.entry q) : Rebuilt t t' (x :: l) l := by
  obtain ⟨hx, hl⟩ := List.nodup_cons.mp hnodup
  refine ⟨hl, fun q hq => .inl (List.mem_cons_of_mem _ hq), fun q hq => ?_, fun q hq hne => ?_,
    hentry⟩
  · rw [htlive]
    refine mem_filter_ne (hlive q (List.mem_cons_of_mem _ hq)) ?_
    rintro rfl
    exact hx hq
  · rw [htlive]
    refine mem_filter_ne hq ?_
    rintro rfl
    exact hne List.mem_cons_self

theorem Rebuilt.unlink {y : Nat} (hnodup : (x :: y :: r).Nodup)
    (hlive : ∀ q ∈ x :: y :: r, q ∈ t.live) :
    Rebuilt t (t.unlink x y) (x :: y :: r) (x :: r) := by
  obtain ⟨hx, hyr⟩ := List.nodup_cons.mp hnodup
  obtain ⟨hy, hr⟩ := List.nodup_cons.mp hyr
  have hkept : ∀ q ∈ t.live, q ≠ y → q ∈ (t.unlink x y).live := fun q hq hne =>
    mem_filter_ne hq hne
  refine ⟨List.nodup_cons.mpr ⟨fun hmem => hx (List.mem_cons_of_mem _ hmem), hr⟩,
    fun q hq => .inl ?_, fun q hq => ?_, fun q hq hne => hkept q hq ?_, fun q _ hne => ?_⟩
  · rcases List.mem_cons.mp hq with rfl | hq
    · exact List.mem_cons_self
    · exact List.mem_cons_of_mem _ (List.mem_cons_of_mem _ hq)
  · rcases List.mem_cons.mp hq with rfl | hq
    · exact hkept q (hlive q List.mem_cons_self) fun heq => hx (heq ▸ List.mem_cons_self)
    · refine hkept q (hlive q (List.mem_cons_of_mem _ (List.mem_cons_of_mem _ hq))) ?_
      rintro rfl
      exact hy hq
  · rintro rfl
    exact hne (List.mem_cons_of_mem _ List.mem_cons_self)
  · apply Function.update_of_ne
    rintro rfl
    exact hne List.mem_cons_self

theorem lookupLoop_spec {fuel : Nat} (h : Chain t.next 0 p l) (hlive : ∀ q ∈ l, q ∈ t.live)
    (hfuel : l.length < fuel) :
    lookupLoop key fuel t p = .ok (lookupIn key (t.bucket l)) := by
  induction l generalizing p fuel with
  | nil =>
    obtain ⟨fuel, rfl⟩ := Nat.exists_eq_succ_of_ne_zero (Nat.ne_zero_of_lt hfuel)
    exact if_pos h
  | cons x r ih =>
    obtain ⟨fuel, rfl⟩ := Nat.exists_eq_succ_of_ne_zero (Nat.ne_zero_of_lt hfuel)
    obtain ⟨rfl, hx, hrest⟩ := h
    have hrec : lookupLoop key fuel t (t.next p) = .ok (lookupIn key (t.bucket r)) :=
      ih hrest (fun q hq => hlive q (List.mem_cons_of_mem _ hq)) (Nat.lt_of_succ_lt_succ hfuel)
    rw [lookupLoop, if_neg hx, HashMem.load_ok (hlive p List.mem_cons_self)]
    show (if (t.entry p).key = key then pure (t.entry p).value
      else lookupLoop key fuel t (t.next p)) = .ok (if (t.entry p).key = key then (t.entry p).value
        else lookupIn key (t.bucket r))
    rw [hrec]
    by_cases hk : (t.entry p).key = key
    · rw [if_pos hk, if_pos hk]
      rfl
    · rw [if_neg hk, if_neg hk]

/-- One round of the loop at an entry `x` with `y` behind it. -/
theorem removeLoop_cons {fuel y : Nat} (hx : x ≠ 0) (hxl : x ∈ t.live) (hnext : t.next x = y)
    (hy : y ≠ 0) (hyl : y ∈ t.live) :
    removeLoop key (fuel + 1) t x =
      if (t.entry y).key = key then .ok (t.unlink x y) else removeLoop key fuel t y := by
  have hfield : (t.entry x).next = y := hnext
  rw [removeLoop, if_neg hx, HashMem.load_ok hxl]
  show (t.hasKey (t.entry x).next key >>= _) = _
  rw [hfield, HashMem.hasKey_live hy hyl]
  by_cases hk : (t.entry y).key = key
  · rw [if_pos hk, decide_eq_true hk]
    show (t.load y >>= _) = _
    rw [HashMem.load_ok hyl]
    show (t.store x _ >>= _) = _
    rw [HashMem.store_ok hxl]
    exact HashMem.free_ok hyl
  · rw [if_neg hk, decide_eq_false hk]
    rfl

theorem removeLoop_last {fuel : Nat} (hx : x ≠ 0) (hxl : x ∈ t.live) (hnext : t.next x = 0) :
    removeLoop key (fuel + 2) t x = .ok t := by
  have hfield : (t.entry x).next = 0 := hnext
  rw [removeLoop, if_neg hx, HashMem.load_ok hxl]
  show (t.hasKey (t.entry x).next key >>= _) = _
  rw [hfield]
  rfl

/-- The loop on a chain whose first entry `x` stays. -/
theorem removeLoop_spec {fuel : Nat} (key : Nat) (h : Chain t.next 0 x (x :: r)) (hnodup : (x :: r).Nodup)
    (hlive : ∀ q ∈ x :: r, q ∈ t.live) (hfuel : r.length + 1 < fuel) :
    ∃ t' r', removeLoop key fuel t x = .ok t' ∧ t'.size = t.size ∧ t'.table = t.table ∧
      Chain t'.next 0 x (x :: r') ∧ Rebuilt t t' (x :: r) (x :: r') ∧
      t'.bucket (x :: r') = removeAfter key (t.entry x).toEntry (t.bucket r) := by
  have hxl : x ∈ t.live := hlive x List.mem_cons_self
  have hx : x ≠ 0 := h.2.1
  induction r generalizing x fuel with
  | nil =>
    obtain ⟨fuel, rfl⟩ := Nat.exists_eq_add_of_le hfuel
    refine ⟨t, [], ?_, rfl, rfl, h, Rebuilt.refl hnodup hlive, rfl⟩
    rw [Nat.add_comm]
    exact removeLoop_last hx hxl h.2.2
  | cons y r ih =>
    obtain ⟨fuel, rfl⟩ := Nat.exists_eq_succ_of_ne_zero (Nat.ne_zero_of_lt hfuel)
    obtain ⟨hxr, hnodup'⟩ := List.nodup_cons.mp hnodup
    obtain ⟨hnext, hy, hrest⟩ := h.2.2
    have hlive' : ∀ q ∈ y :: r, q ∈ t.live := fun q hq => hlive q (List.mem_cons_of_mem _ hq)
    have hyl : y ∈ t.live := hlive' y List.mem_cons_self
    have hspec : removeAfter key (t.entry x).toEntry (t.bucket (y :: r)) =
        if (t.entry y).key = key then (t.entry x).toEntry :: t.bucket r
        else (t.entry x).toEntry :: removeAfter key (t.entry y).toEntry (t.bucket r) := rfl
    rw [removeLoop_cons hx hxl hnext hy hyl, hspec]
    by_cases hk : (t.entry y).key = key
    · -- the entry behind `x` goes
      rw [if_pos hk, if_pos hk]
      have hxr' : x ∉ r := fun hmem => hxr (List.mem_cons_of_mem _ hmem)
      refine ⟨t.unlink x y, r, rfl, rfl, rfl, ?_, Rebuilt.unlink hnodup hlive, ?_⟩
      · rw [HashMem.unlink, HashMem.next_update]
        exact h.unlink hxr'
      · show (Function.update t.entry x _ x).toEntry :: (t.unlink x y).bucket r = _
        have hframe : ∀ q ∈ r, (t.unlink x y).entry q = t.entry q := fun q hq => by
          apply Function.update_of_ne
          rintro rfl
          exact hxr' hq
        rw [Function.update_self, HashMem.bucket_congr hframe]
    · -- the loop goes on
      rw [if_neg hk, if_neg hk]
      obtain ⟨t', r', hrun, hsize, htable, hlinked, hl, hbucket⟩ :=
        ih ⟨rfl, hy, hrest⟩ hnodup' hlive' (Nat.lt_of_succ_lt_succ hfuel) hyl hy
      have hentry : t'.entry x = t.entry x := hl.frame x hxl hxr
      have hlink : t'.next x = y := (congrArg HashEntry.next hentry).trans hnext
      refine ⟨t', y :: r', hrun, hsize, htable, ⟨rfl, hx, ?_⟩, hl.cons hxl hxr, ?_⟩
      · rw [hlink]
        exact hlinked
      · rw [← hbucket, ← hentry]
        rfl

theorem hashLookup_spec (h : Holds hash t bindings) :
    hashLookup hash t key = .ok ((bindings key).headD 0) := by
  obtain ⟨chain, hchains, hbind⟩ := h
  obtain ⟨p, hcell, -, hlinked⟩ := hchains.at_key hash key
  rw [hashLookup, hcell]
  show lookupLoop key (t.live.length + 1) t p = _
  rw [lookupLoop_spec hlinked (hchains.live _) (Nat.lt_succ_of_le (hchains.length_le _)),
    lookupIn_eq, hbind]

theorem hashInsert_spec (key value : Nat) (h : Holds hash t bindings) (hp : p ≠ 0)
    (hfresh : p ∉ t.live) :
    ∃ t', hashInsert hash t key value p = .ok (t', 0) ∧
      Holds hash t' (Function.update bindings key (value :: bindings key)) := by
  obtain ⟨chain, hchains, hbind⟩ := h
  obtain ⟨head, hcell, hat, hlinked⟩ := hchains.at_key hash key
  have hlt : t.index hash key < t.table.length := hchains.length ▸ hchains.index_lt
  have hlive := hchains.live (t.index hash key)
  have hnew : p ∉ chain (t.index hash key) := fun hmem => hfresh (hlive p hmem)
  have hframe : ∀ q ∈ t.live, (t.push (t.index hash key) head key value p).entry q = t.entry q := by
    intro q hq
    apply Function.update_of_ne
    rintro rfl
    exact hfresh hq
  have hbucket : (t.push (t.index hash key) head key value p).bucket
      (p :: chain (t.index hash key)) =
        ⟨key, value⟩ :: t.bucket (chain (t.index hash key)) := by
    show (Function.update t.entry p ⟨⟨key, value⟩, head⟩ p).toEntry ::
      (t.push (t.index hash key) head key value p).bucket _ = _
    rw [Function.update_self, HashMem.bucket_congr fun q hq => hframe q (hlive q hq)]
  have hrebuilt : Rebuilt t (t.push (t.index hash key) head key value p)
      (chain (t.index hash key)) (p :: chain (t.index hash key)) := by
    refine ⟨List.nodup_cons.mpr ⟨hnew, hchains.nodup _⟩, fun q hq => ?_, fun q hq => ?_,
      fun q hq _ => List.mem_cons_of_mem _ hq, fun q hq _ => hframe q hq⟩
    · rcases List.mem_cons.mp hq with rfl | hq
      · exact .inr hfresh
      · exact .inl hq
    · rcases List.mem_cons.mp hq with rfl | hq
      · exact List.mem_cons_self
      · exact List.mem_cons_of_mem _ (hlive q hq)
  let filled : HashMem := { t with
    entry := Function.update t.entry p ⟨⟨key, value⟩, head⟩
    live := p :: t.live }
  refine ⟨t.push (t.index hash key) head key value p, ?_,
    hchains.holds_rebuild hbind hrebuilt rfl rfl ?_ ?_ fun k hk => ?_⟩
  · rw [hashInsert, if_neg hp]
    show ((t.alloc p).cell (t.index hash key) >>= _) = _
    rw [HashMem.cell_ok (show (t.alloc p).table[t.index hash key]? = some head from hat)]
    show ((t.alloc p).store p _ >>= _) = _
    rw [HashMem.store_ok (show p ∈ (t.alloc p).live from List.mem_cons_self)]
    show (HashMem.setCell filled (t.index hash key) p >>= _) = _
    rw [HashMem.setCell_ok (t := filled) hlt]
    rfl
  · rw [HashMem.push, HashMem.next_update]
    exact hlinked.push hnew hp
  · have hkey : (Entry.mk key value).key = key := rfl
    rw [hbucket, valuesOf_cons_self hkey, hbind]
  · rw [hbucket, valuesOf_cons_other fun heq => hk heq.symm]

/-- The chain of the key after `hash_remove`. -/
theorem Chains.hashRemove (h : Chains t chain) (hash : Nat → Nat) (key : Nat) :
    ∃ t' p l', hashRemove hash t key = .ok t' ∧ Rebuilt t t' (chain (t.index hash key)) l' ∧
      t'.size = t.size ∧ t'.table = t.table.set (t.index hash key) p ∧ Chain t'.next 0 p l' ∧
      t'.bucket l' = removeFrom key (t.bucket (chain (t.index hash key))) := by
  obtain ⟨head, hcell, hat, hlinked⟩ := h.at_key hash key
  have hlength := h.length_le (t.index hash key)
  have hnodup := h.nodup (t.index hash key)
  have hlive := h.live (t.index hash key)
  obtain ⟨hlt, hhead⟩ := List.getElem?_eq_some_iff.mp hat
  have hsame : t.table = t.table.set (t.index hash key) head := by
    rw [← hhead, List.set_getElem_self]
  rw [Chained.hashRemove, hcell]
  show ∃ t' p l', (t.hasKey head key >>= _) = _ ∧ _
  cases hchain : chain (t.index hash key) with
  | nil =>
    rw [hchain] at hlinked
    obtain rfl : head = 0 := hlinked
    exact ⟨t, 0, [], rfl, Rebuilt.refl List.nodup_nil (by simp), rfl, hsame, rfl, rfl⟩
  | cons x r =>
    rw [hchain] at hlinked hlength hnodup hlive
    obtain ⟨rfl, hx, hrest⟩ := hlinked
    have hxl : head ∈ t.live := hlive head List.mem_cons_self
    have hspec : removeFrom key (t.bucket (head :: r)) =
        if (t.entry head).key = key then t.bucket r
        else removeAfter key (t.entry head).toEntry (t.bucket r) := rfl
    rw [HashMem.hasKey_live hx hxl, hspec]
    by_cases hk : (t.entry head).key = key
    · -- the first entry goes
      rw [decide_eq_true hk, if_pos hk]
      refine ⟨{ t with
          table := t.table.set (t.index hash key) (t.next head)
          live := t.live.filter (· ≠ head) }, t.next head, r, ?_,
        Rebuilt.tail hnodup hlive rfl fun _ _ _ => rfl, rfl, rfl, hrest, rfl⟩
      show (t.load head >>= _) = _
      rw [HashMem.load_ok hxl]
      show (t.free head >>= _) = _
      rw [HashMem.free_ok hxl]
      exact HashMem.setCell_ok hlt
    · rw [decide_eq_false hk, if_neg hk]
      obtain ⟨t', r', hrun, hsize, htable, hlinked', hl, hbucket⟩ :=
        removeLoop_spec key ⟨rfl, hx, hrest⟩ hnodup hlive (Nat.lt_succ_of_le hlength)
      exact ⟨t', head, head :: r', hrun, hl, hsize, htable.trans hsame, hlinked', hbucket⟩

theorem hashRemove_spec (key : Nat) (h : Holds hash t bindings) :
    ∃ t', hashRemove hash t key = .ok t' ∧
      Holds hash t' (Function.update bindings key (bindings key).tail) := by
  obtain ⟨chain, hchains, hbind⟩ := h
  obtain ⟨t', p, l', hrun, hl, hsize, htable, hlinked, hbucket⟩ := hchains.hashRemove hash key
  refine ⟨t', hrun, hchains.holds_rebuild hbind hl hsize htable hlinked ?_ fun k hk => ?_⟩
  · rw [hbucket, valuesOf_removeFrom.1, hbind]
  · rw [hbucket, valuesOf_removeFrom.2 k hk]

/-- The first `n` cells have been set to `NULL`. -/
theorem clear_cells (n : Nat) (hn : n ≤ t.table.length) :
    (List.range n).foldlM (fun t counter => t.setCell counter 0) t =
      .ok { t with table := List.replicate n 0 ++ t.table.drop n } := by
  induction n with
  | zero => rfl
  | succ n ih =>
    rw [List.range_succ, List.foldlM_append, ih (Nat.le_of_succ_le hn)]
    have hlt : n < (List.replicate n 0 ++ t.table.drop n).length := by
      simp
      omega
    show (HashMem.setCell _ n 0 >>= pure) = _
    rw [HashMem.setCell_ok hlt, List.set_append_right _ _ (by simp), List.length_replicate,
      Nat.sub_self, List.drop_eq_getElem_cons hn, List.set_cons_zero, List.replicate_succ',
      List.append_assoc]
    rfl

theorem two_pow_and_mask (k : Nat) (h : t.size = 2 ^ k) : 2 ^ k &&& t.mask = 0 := by
  have hmask : t.mask = (2 ^ k - 1) % 2 ^ 32 := by
    have hpos : 0 < 2 ^ k := Nat.two_pow_pos k
    rw [HashMem.mask, h, show 2 ^ k + 2 ^ 32 - 1 = 2 ^ k - 1 + 2 ^ 32 by omega, Nat.add_mod_right]
  refine Nat.eq_of_testBit_eq fun j => ?_
  rw [hmask, Nat.testBit_and, Nat.testBit_two_pow, Nat.testBit_mod_two_pow,
    Nat.testBit_two_pow_sub_one, Nat.zero_testBit]
  by_cases hj : k = j
  · simp [hj]
  · simp [hj]

/-- An empty table. -/
theorem hashInit_spec (hash : Nat → Nat) {k : Nat} {old : List Nat} (hold : old.length = 2 ^ k) :
    ∃ t, hashInit (2 ^ k) old = .ok t ∧ Holds hash t fun _ => [] := by
  let t : HashMem := ⟨2 ^ k, old, fun _ => ⟨⟨0, 0⟩, 0⟩, []⟩
  have hcells := clear_cells (t := t) (2 ^ k) hold.ge
  rw [List.drop_of_length_le (show t.table.length ≤ 2 ^ k from hold.le), List.append_nil] at hcells
  refine ⟨{ t with table := List.replicate (2 ^ k) 0 }, ?_, fun _ => [], ?_, fun _ => rfl⟩
  · have hpanic : ¬ 2 ^ k &&& t.mask ≠ 0 := fun h => h (two_pow_and_mask (t := t) k rfl)
    exact (if_neg hpanic).trans hcells
  · refine ⟨Nat.two_pow_pos k, List.length_replicate, fun i p hp => ?_, fun _ _ hq => ?_,
      fun _ => List.nodup_nil, fun _ _ _ hq => ?_⟩
    · exact (List.mem_replicate.mp (List.mem_of_getElem? hp)).2
    · exact absurd hq List.not_mem_nil
    · exact absurd hq List.not_mem_nil

/-- A table beside the stacks that it stands for. -/
def Agrees (hash : Nat → Nat) (s : HashRun) (g : Stacks) : Prop :=
  Holds hash s.mem g.bindings ∧ s.answers = g.answers

/-- **One call.** -/
theorem step_agrees (op : HashOp) (s : HashRun) (g : Stacks) (h : Agrees hash s g)
    (hfresh : Fresh op s) :
    ∃ s', step hash op s = .ok s' ∧ Agrees hash s' (g.step op) := by
  obtain ⟨hholds, hanswers⟩ := h
  cases op with
  | insert key value p =>
    obtain ⟨t', hrun, hnew⟩ := hashInsert_spec key value hholds hfresh.1 hfresh.2
    refine ⟨{ s with mem := t' }, ?_, hnew, hanswers⟩
    rw [step, hrun]
    rfl
  | remove key =>
    obtain ⟨t', hrun, hnew⟩ := hashRemove_spec key hholds
    refine ⟨{ s with mem := t' }, ?_, hnew, hanswers⟩
    rw [step, hrun]
    rfl
  | lookup key =>
    refine ⟨{ s with answers := s.answers ++ [(g.bindings key).headD 0] }, ?_, hholds, ?_⟩
    · rw [step, hashLookup_spec hholds]
      rfl
    · rw [hanswers]
      rfl

end

/-- **The table is a map of stacks.**  For every size that is a power of two and whatever the keys
    hash to, every sequence of calls goes through; each lookup has told the newest binding of its
    key that was left then, or `NULL`, and in the end the table holds for each key the bindings
    that its own insertions and removals leave. -/
theorem runs_hash_right (hash : Nat → Nat) (k : Nat) (old : List Nat) (ops : List HashOp)
    (hold : old.length = 2 ^ k)
    (hfresh : ∀ t, hashInit (2 ^ k) old = .ok t → Along (step hash) Fresh ops ⟨t, []⟩) :
    ∃ t s, hashInit (2 ^ k) old = .ok t ∧ runs (step hash) ops ⟨t, []⟩ = .ok s ∧
      s.answers = (ops.foldl Stacks.step Stacks.empty).answers ∧
      Holds hash s.mem (ops.foldl Stacks.step Stacks.empty).bindings ∧
      ∀ key, hashLookup hash s.mem key =
        .ok (((ops.foldl Stacks.step Stacks.empty).bindings key).headD 0) := by
  obtain ⟨t, hinit, hempty⟩ := hashInit_spec hash hold
  obtain ⟨s, hrun, hholds, hanswers⟩ :=
    runs_simulates step_agrees ops ⟨t, []⟩ Stacks.empty ⟨hempty, rfl⟩ (hfresh t hinit)
  exact ⟨t, s, hinit, hrun, hanswers, hholds, fun key => hashLookup_spec hholds⟩

/-- Three keys in two cells, one of them bound twice and one not at all. -/
def mixedCalls : List HashOp :=
  [.insert 5 100 16, .insert 7 200 24, .insert 5 300 32, .insert 6 400 48, .lookup 5, .remove 5,
    .lookup 5, .remove 9, .lookup 9, .insert 9 500 32, .lookup 7]

theorem mixedCalls_right :
    (mixedCalls.foldl Stacks.step Stacks.empty).answers = [300, 100, 0, 200] ∧
      ∃ t s, hashInit (2 ^ 1) [8, 8] = .ok t ∧ runs (step hashHash) mixedCalls ⟨t, []⟩ = .ok s ∧
        s.answers = (mixedCalls.foldl Stacks.step Stacks.empty).answers ∧
        Holds hashHash s.mem (mixedCalls.foldl Stacks.step Stacks.empty).bindings ∧
        ∀ key, hashLookup hashHash s.mem key =
          .ok (((mixedCalls.foldl Stacks.step Stacks.empty).bindings key).headD 0) := by
  refine ⟨by decide, runs_hash_right hashHash 1 [8, 8] mixedCalls rfl fun t ht => ?_⟩
  obtain rfl := Except.ok.inj
    ((show hashInit (2 ^ 1) [8, 8] = .ok ⟨2, [0, 0], fun _ => ⟨⟨0, 0⟩, 0⟩, []⟩ from rfl).symm.trans ht)
  decide

end FreeVMS.Thread.Chained
