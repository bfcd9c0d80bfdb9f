import FreeVMS.Alloc.L4
import Mathlib.Logic.Function.Basic

/-!
# The hash table

`sys_hash.c`: buckets of entries, the newest first.  A key may be inserted more than once; a
lookup finds the newest entry, and a removal uncovers the one before it.  The entries come
from the heap, which has room here.
-/

namespace FreeVMS.Thread

open Alloc

/-- `~x` on words. -/
def wordNot (x : Nat) : Nat := wordSize - 1 - x

/-- `hash_hash`, for words of 8 bytes. -/
def hashHash (key : Nat) : Nat :=
  let key := wordAdd key (wordNot (wordShl key 32))
  let key := key ^^^ wordShr key 22
  let key := wordAdd key (wordNot (wordShl key 13))
  let key := key ^^^ wordShr key 8
  let key := wordAdd key (wordShl key 3)
  let key := key ^^^ wordShr key 15
  let key := wordAdd key (wordNot (wordShl key 27))
  key ^^^ wordShr key 31

/-- `struct hashentry`, without the link. -/
structure Entry where
  key : Nat
  value : Nat
deriving DecidableEq, Repr

/-- `struct hashtable`; each bucket is the list that begins at its entry of `table`. -/
structure HashTable where
  size : Nat
  table : Nat → List Entry

/-- `hash_init`. -/
def hashInit (size : Nat) : HashTable := ⟨size, fun _ => []⟩

/-- The bucket of a key. -/
def HashTable.slot (t : HashTable) (key : Nat) : Nat := hashHash key &&& (t.size - 1)

/-- The loop of `hash_remove`, on an entry that has another key. -/
def removeAfter (key : Nat) : Entry → List Entry → List Entry
  | entry, [] => [entry]
  | entry, next :: rest =>
      if next.key = key then entry :: rest else entry :: removeAfter key next rest

/-- A bucket after `hash_remove`. -/
def removeFrom (key : Nat) : List Entry → List Entry
  | [] => []
  | entry :: rest => if entry.key = key then rest else removeAfter key entry rest

/-- `hash_remove`. -/
def hashRemove (t : HashTable) (key : Nat) : HashTable :=
  { t with table := Function.update t.table (t.slot key) (removeFrom key (t.table (t.slot key))) }

/-- The loop of `hash_lookup`; 0 is `NULL`. -/
def lookupIn (key : Nat) : List Entry → Nat
  | [] => 0
  | entry :: rest => if entry.key = key then entry.value else lookupIn key rest

/-- `hash_lookup`. -/
def hashLookup (t : HashTable) (key : Nat) : Nat := lookupIn key (t.table (t.slot key))

/-- `hash_insert`. -/
def hashInsert (t : HashTable) (key value : Nat) : HashTable :=
  { t with table := Function.update t.table (t.slot key) (⟨key, value⟩ :: t.table (t.slot key)) }

/-! ### The bindings of a key -/

/-- The values of the entries of a key, the newest first. -/
def valuesOf (key : Nat) (bucket : List Entry) : List Nat :=
  (bucket.filter fun e => e.key = key).map Entry.value

/-- The bindings of a key in a table. -/
def HashTable.bindings (t : HashTable) (key : Nat) : List Nat := valuesOf key (t.table (t.slot key))

section

variable {key key' value : Nat} {e : Entry} {bucket : List Entry} {t : HashTable}

theorem valuesOf_cons_self (h : e.key = key) :
    valuesOf key (e :: bucket) = e.value :: valuesOf key bucket := by
  simp [valuesOf, h]

theorem valuesOf_cons_other (h : e.key ≠ key) : valuesOf key (e :: bucket) = valuesOf key bucket := by
  simp [valuesOf, h]

theorem lookupIn_eq : lookupIn key bucket = (valuesOf key bucket).headD 0 := by
  induction bucket with
  | nil => rfl
  | cons e rest ih =>
    rw [lookupIn]
    by_cases h : e.key = key
    · rw [if_pos h, valuesOf_cons_self h, List.headD_cons]
    · rw [if_neg h, valuesOf_cons_other h, ih]

theorem valuesOf_removeAfter (h : e.key ≠ key) :
    valuesOf key (removeAfter key e bucket) = (valuesOf key bucket).tail ∧
      ∀ key' ≠ key, valuesOf key' (removeAfter key e bucket) = valuesOf key' (e :: bucket) := by
  induction bucket generalizing e with
  | nil => exact ⟨valuesOf_cons_other h, fun _ _ => rfl⟩
  | cons next rest ih =>
    rw [removeAfter]
    by_cases hn : next.key = key
    · rw [if_pos hn]
      refine ⟨by rw [valuesOf_cons_other h, valuesOf_cons_self hn, List.tail_cons], fun key' hk => ?_⟩
      have hne : next.key ≠ key' := fun heq => hk (heq.symm.trans hn)
      by_cases he : e.key = key'
      · rw [valuesOf_cons_self he, valuesOf_cons_self he, valuesOf_cons_other hne]
      · rw [valuesOf_cons_other he, valuesOf_cons_other he, valuesOf_cons_other hne]
    · rw [if_neg hn]
      obtain ⟨hself, hother⟩ := ih hn
      refine ⟨by rw [valuesOf_cons_other h, hself, valuesOf_cons_other hn], fun key' hk => ?_⟩
      by_cases he : e.key = key'
      · rw [valuesOf_cons_self he, valuesOf_cons_self he, hother key' hk]
      · rw [valuesOf_cons_other he, valuesOf_cons_other he, hother key' hk]

theorem valuesOf_removeFrom :
    valuesOf key (removeFrom key bucket) = (valuesOf key bucket).tail ∧
      ∀ key' ≠ key, valuesOf key' (removeFrom key bucket) = valuesOf key' bucket := by
  cases bucket with
  | nil => exact ⟨rfl, fun _ _ => rfl⟩
  | cons e rest =>
    rw [removeFrom]
    by_cases h : e.key = key
    · rw [if_pos h, valuesOf_cons_self h, List.tail_cons]
      exact ⟨rfl, fun key' hk => (valuesOf_cons_other fun heq => hk (heq.symm.trans h)).symm⟩
    · rw [if_neg h, valuesOf_cons_other h]
      exact valuesOf_removeAfter h

/-- The bindings of a key after its bucket has been replaced by one with the values `vs` for it. -/
theorem bindings_update {bucket : List Entry} {k : Nat}
    (hother : t.slot key = k → valuesOf key bucket = t.bindings key) :
    ({ t with table := Function.update t.table k bucket } : HashTable).bindings key =
      t.bindings key := by
  show valuesOf key (Function.update t.table k bucket (t.slot key)) = _
  by_cases h : t.slot key = k
  · rw [h, Function.update_self, hother h]
  · rw [Function.update_of_ne h]
    rfl

/-- **Lookup.**  The newest binding of the key. -/
theorem hashLookup_eq : hashLookup t key = (t.bindings key).headD 0 := lookupIn_eq

/-- **Insertion.**  A binding is put on top of those of its key. -/
theorem bindings_hashInsert_self :
    (hashInsert t key value).bindings key = value :: t.bindings key := by
  show valuesOf key (Function.update t.table (t.slot key) _ (t.slot key)) = _
  rw [Function.update_self]
  exact valuesOf_cons_self rfl

theorem bindings_hashInsert_other (h : key' ≠ key) :
    (hashInsert t key value).bindings key' = t.bindings key' :=
  bindings_update fun hslot => by
    rw [valuesOf_cons_other fun heq => h heq.symm, ← hslot]
    rfl

/-- **Removal.**  The newest binding of the key is dropped. -/
theorem bindings_hashRemove_self : (hashRemove t key).bindings key = (t.bindings key).tail := by
  show valuesOf key (Function.update t.table (t.slot key) _ (t.slot key)) = _
  rw [Function.update_self]
  exact valuesOf_removeFrom.1

theorem bindings_hashRemove_other (h : key' ≠ key) :
    (hashRemove t key).bindings key' = t.bindings key' :=
  bindings_update fun hslot => by
    rw [valuesOf_removeFrom.2 key' h, ← hslot]
    rfl

end

end FreeVMS.Thread
