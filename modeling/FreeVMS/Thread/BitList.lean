import FreeVMS.Alloc.Code
import Mathlib.Logic.Function.Basic

/-!
# The bit free list

`sys_bfl.c`: a set of numbers as an array of words, a bit for each free number.  The search for
a word that is not 0 begins at the cursor `curpos`.
-/

namespace FreeVMS.Thread

open Alloc

/-- `struct bfl`. -/
structure Bfl where
  curpos : Nat
  len : Nat
  bitarray : Nat → BitVec 64

/-- `bfl->bitarray[i] = word`. -/
def Bfl.set (bfl : Bfl) (i : Nat) (word : BitVec 64) : Bfl :=
  { bfl with bitarray := Function.update bfl.bitarray i word }

/-- `((bfl_word) 1) << k`. -/
def bit (k : Nat) : BitVec 64 := 1#64 <<< k

/-- The loop of `find_first_set` at the bit `ret`, with `n` bits left; nothing for `-1`. -/
def firstSetFrom : Nat → Nat → BitVec 64 → Option Nat
  | 0, _, _ => none
  | n + 1, ret, x => if x &&& 1#64 ≠ 0#64 then some ret else firstSetFrom n (ret + 1) (x >>> 1)

/-- `find_first_set`. -/
def findFirstSet (x : BitVec 64) : Option Nat := firstSetFrom 64 0 x

/-- `sys$bfl_free`. -/
def bflFree (bfl : Bfl) (val : Nat) : Except Fault Bfl :=
  let idx := val / 64
  if idx ≥ bfl.len then .error .panic
  else .ok (bfl.set idx (bfl.bitarray idx ||| bit (val % 64)))

/-- The loops of `sys$bfl_alloc`: the first of `n` words from `i` on that is not 0. -/
def firstWord (bfl : Bfl) : Nat → Nat → Option Nat
  | 0, _ => none
  | n + 1, i => if bfl.bitarray i ≠ 0#64 then some i else firstWord bfl n (i + 1)

/-- `sys$bfl_alloc`; nothing for `-1`.  The cursor is not moved: the source compares the address of
    the array with 0. -/
def bflAlloc (bfl : Bfl) : Option Nat × Bfl :=
  match (firstWord bfl (bfl.len - bfl.curpos) bfl.curpos).or (firstWord bfl bfl.curpos 0) with
  | none => (none, bfl)
  | some i =>
      match findFirstSet (bfl.bitarray i) with
      | none => (none, bfl)
      | some pos => (some (i * 64 + pos), bfl.set i (bfl.bitarray i &&& ~~~ bit pos))

/-- The numbers below `size` are put in one by one. -/
def bflFill : Nat → Bfl → Except Fault Bfl
  | 0, bfl => .ok bfl
  | n + 1, bfl => (bflFill n bfl).bind fun bfl => bflFree bfl n

/-- `sys$bfl_new`. -/
def bflNew (size : Nat) : Except Fault Bfl := bflFill size ⟨0, size / 64 + 1, fun _ => 0#64⟩

/-! ### The set of a list -/

/-- `n` is free. -/
def Bfl.Free (bfl : Bfl) (n : Nat) : Prop := (bfl.bitarray (n / 64)).getLsbD (n % 64) = true

/-- The numbers of the set have a word. -/
def Bfl.Bounded (bfl : Bfl) : Prop := ∀ n, bfl.Free n → n / 64 < bfl.len

section

variable {bfl bfl' : Bfl} {n m : Nat}

theorem getLsbD_bit {k j : Nat} (hk : k < 64) : (bit k).getLsbD j = decide (j = k) := by
  rw [bit, BitVec.getLsbD_shiftLeft]
  by_cases h : j = k
  · simp [h, hk]
  · by_cases hlt : j < k
    · simp [h, hlt]
    · simp [h, show j - k ≠ 0 by omega]

theorem lsb_iff {x : BitVec 64} : x &&& 1#64 ≠ 0#64 ↔ x.getLsbD 0 = true := by
  rw [BitVec.and_one_eq_setWidth_ofBool_getLsbD]
  cases x.getLsbD 0 <;> decide

theorem firstSetFrom_spec : ∀ (n ret : Nat) (x : BitVec 64),
    (∀ k, firstSetFrom n ret x = some k → ret ≤ k ∧ k < ret + n ∧ x.getLsbD (k - ret) = true) ∧
      (firstSetFrom n ret x = none → ∀ k < n, x.getLsbD k = false) := by
  intro n
  induction n with
  | zero => exact fun ret x => ⟨fun k hk => (nomatch hk), fun _ k hk => absurd hk (Nat.not_lt_zero k)⟩
  | succ n ih =>
    intro ret x
    rw [firstSetFrom]
    by_cases h : x &&& 1#64 ≠ 0#64
    · rw [if_pos h]
      refine ⟨fun k hk => ?_, fun hk => nomatch hk⟩
      obtain rfl := Option.some.inj hk
      exact ⟨Nat.le_refl _, by omega, by simpa using lsb_iff.mp h⟩
    · rw [if_neg h]
      obtain ⟨hsome, hnone⟩ := ih (ret + 1) (x >>> 1)
      refine ⟨fun k hk => ?_, fun hk k hlt => ?_⟩
      · obtain ⟨h1, h2, h3⟩ := hsome k hk
        rw [BitVec.getLsbD_ushiftRight] at h3
        exact ⟨by omega, by omega, by rwa [show k - ret = 1 + (k - (ret + 1)) by omega]⟩
      · cases k with
        | zero => simpa using fun h0 => h (lsb_iff.mpr h0)
        | succ k =>
          have hk' := hnone hk k (by omega)
          rw [BitVec.getLsbD_ushiftRight] at hk'
          rwa [Nat.add_comm]

/-- A word that is not 0 has a bit set. -/
theorem findFirstSet_spec {x : BitVec 64} (hx : x ≠ 0#64) :
    ∃ k, findFirstSet x = some k ∧ k < 64 ∧ x.getLsbD k = true := by
  obtain ⟨hsome, hnone⟩ := firstSetFrom_spec 64 0 x
  cases h : findFirstSet x with
  | none =>
    refine absurd (BitVec.eq_of_getLsbD_eq fun k hk => ?_) hx
    rw [hnone h k hk, BitVec.getLsbD_zero]
  | some k =>
    obtain ⟨-, hlt, hset⟩ := hsome k h
    exact ⟨k, rfl, by omega, hset⟩

theorem firstWord_spec (bfl : Bfl) : ∀ (n i : Nat),
    (∀ j, firstWord bfl n i = some j → i ≤ j ∧ j < i + n ∧ bfl.bitarray j ≠ 0#64) ∧
      (firstWord bfl n i = none → ∀ j, i ≤ j → j < i + n → bfl.bitarray j = 0#64) := by
  intro n
  induction n with
  | zero => exact fun i => ⟨fun j hj => (nomatch hj), fun _ j h1 h2 => by omega⟩
  | succ n ih =>
    intro i
    rw [firstWord]
    by_cases h : bfl.bitarray i ≠ 0#64
    · rw [if_pos h]
      refine ⟨fun j hj => ?_, fun hj => nomatch hj⟩
      obtain rfl := Option.some.inj hj
      exact ⟨Nat.le_refl _, by omega, h⟩
    · rw [if_neg h]
      obtain ⟨hsome, hnone⟩ := ih (i + 1)
      refine ⟨fun j hj => ?_, fun hj j h1 h2 => ?_⟩
      · obtain ⟨h1, h2, h3⟩ := hsome j hj
        exact ⟨by omega, by omega, h3⟩
      · rcases Nat.eq_or_lt_of_le h1 with rfl | hlt
        · exact not_not.mp h
        · exact hnone hj j hlt (by omega)

/-- The freed number is in the set, and nothing else changes. -/
theorem free_update_or :
    (bfl.set (n / 64) (bfl.bitarray (n / 64) ||| bit (n % 64))).Free m ↔ m = n ∨ bfl.Free m := by
  have hlt : n % 64 < 64 := Nat.mod_lt _ (by decide)
  rw [Bfl.Free, Bfl.Free, Bfl.set]
  by_cases hw : m / 64 = n / 64
  · simp only [hw, Function.update_self, BitVec.getLsbD_or, getLsbD_bit hlt, Bool.or_eq_true,
      decide_eq_true_eq]
    rw [or_comm, show m % 64 = n % 64 ↔ m = n by omega]
  · simp only [Function.update_of_ne hw]
    exact ⟨.inr, fun h => h.resolve_left fun heq => hw (by rw [heq])⟩

/-- **Putting back.**  A number that has a word is added to the set. -/
theorem bflFree_spec (h : n / 64 < bfl.len) :
    ∃ bfl', bflFree bfl n = .ok bfl' ∧ bfl'.len = bfl.len ∧ bfl'.curpos = bfl.curpos ∧
      ∀ m, bfl'.Free m ↔ m = n ∨ bfl.Free m :=
  ⟨_, if_neg (Nat.not_le.mpr h), rfl, rfl, fun _ => free_update_or⟩

/-- What `sys$bfl_alloc` does to a set that is not empty: a number is taken. -/
structure Bfl.Took (bfl : Bfl) (n : Nat) (bfl' : Bfl) : Prop where
  free : bfl.Free n
  eq : bfl' = bfl.set (n / 64) (bfl.bitarray (n / 64) &&& ~~~ bit (n % 64))

theorem Bfl.Took.free_iff (h : bfl.Took n bfl') : bfl'.Free m ↔ m ≠ n ∧ bfl.Free m := by
  have hlt : n % 64 < 64 := Nat.mod_lt _ (by decide)
  rw [h.eq, Bfl.Free, Bfl.Free, Bfl.set]
  by_cases hw : m / 64 = n / 64
  · simp only [hw, Function.update_self, BitVec.getLsbD_and, BitVec.getLsbD_not, getLsbD_bit hlt,
      Nat.mod_lt m (show 0 < 64 by decide), Bool.and_eq_true, Bool.not_eq_true', decide_eq_false_iff_not,
      decide_true, Bool.true_and]
    rw [and_comm, show m % 64 = n % 64 ↔ m = n by omega]
  · simp only [Function.update_of_ne hw]
    exact ⟨fun hf => ⟨fun heq => hw (by rw [heq]), hf⟩, And.right⟩

theorem Bfl.Took.len_eq (h : bfl.Took n bfl') : bfl'.len = bfl.len := by
  rw [h.eq]
  rfl

/-- A number that is taken and put back leaves the list as it was. -/
theorem Bfl.Took.undo (h : bfl.Took n bfl') (hlen : n / 64 < bfl.len) :
    bflFree bfl' n = .ok bfl := by
  have hword : (bfl.bitarray (n / 64) &&& ~~~ bit (n % 64)) ||| bit (n % 64) =
      bfl.bitarray (n / 64) := by
    apply BitVec.eq_of_getLsbD_eq
    intro k hk
    rw [BitVec.getLsbD_or, BitVec.getLsbD_and, BitVec.getLsbD_not, getLsbD_bit (Nat.mod_lt _ (by decide))]
    by_cases heq : k = n % 64
    · simpa [heq] using h.free.symm
    · simp [heq, hk]
  rw [bflFree, if_neg (by rw [h.len_eq]; omega), h.eq]
  simp only [Bfl.set, Function.update_self, Function.update_idem, hword, Function.update_eq_self]

/-- **Taking.**  A number is taken if there is one, wherever the cursor is. -/
theorem bflAlloc_spec (hb : bfl.Bounded) :
    (∃ n, (bflAlloc bfl).1 = some n ∧ bfl.Took n (bflAlloc bfl).2) ∨
      (bflAlloc bfl = (none, bfl) ∧ ∀ n, ¬ bfl.Free n) := by
  obtain ⟨hsome, hnone⟩ := firstWord_spec bfl (bfl.len - bfl.curpos) bfl.curpos
  obtain ⟨hsome', hnone'⟩ := firstWord_spec bfl bfl.curpos 0
  rw [bflAlloc]
  cases h : (firstWord bfl (bfl.len - bfl.curpos) bfl.curpos).or (firstWord bfl bfl.curpos 0) with
  | none =>
    obtain ⟨h1, h2⟩ := Option.or_eq_none_iff.mp h
    refine .inr ⟨rfl, fun n hn => ?_⟩
    have hlen := hb n hn
    have hzero : bfl.bitarray (n / 64) = 0#64 := by
      rcases Nat.lt_or_ge (n / 64) bfl.curpos with hlt | hge
      · exact hnone' h2 _ (Nat.zero_le _) (by omega)
      · exact hnone h1 _ hge (by omega)
    rw [Bfl.Free, hzero, BitVec.getLsbD_zero] at hn
    exact nomatch hn
  | some i =>
    have hi : bfl.bitarray i ≠ 0#64 := by
      rcases Option.or_eq_some_iff.mp h with h1 | ⟨-, h2⟩
      · exact (hsome i h1).2.2
      · exact (hsome' i h2).2.2
    obtain ⟨pos, hpos, hlt, hset⟩ := findFirstSet_spec hi
    have hdiv : (i * 64 + pos) / 64 = i := by omega
    have hmod : (i * 64 + pos) % 64 = pos := by omega
    simp only [hpos]
    refine .inl ⟨_, rfl, ?_, ?_⟩
    · rw [Bfl.Free, hdiv, hmod]
      exact hset
    · rw [hdiv, hmod]

/-- `sys$bfl_new` frees the numbers below `size`. -/
theorem bflFill_spec {size : Nat} : ∀ n, n ≤ size →
    ∃ bfl, bflFill n ⟨0, size / 64 + 1, fun _ => 0#64⟩ = .ok bfl ∧ bfl.len = size / 64 + 1 ∧
      ∀ m, bfl.Free m ↔ m < n := by
  intro n
  induction n with
  | zero =>
    intro _
    refine ⟨_, rfl, rfl, fun m => ?_⟩
    simp [Bfl.Free]
  | succ n ih =>
    intro hle
    obtain ⟨bfl, hfill, hlen, hfree⟩ := ih (by omega)
    have hword : n / 64 < bfl.len := by omega
    obtain ⟨bfl', hbfl', hlen', -, hfree'⟩ := bflFree_spec hword
    refine ⟨bfl', ?_, hlen'.trans hlen, fun m => ?_⟩
    · rw [bflFill, hfill]
      exact hbfl'
    · rw [hfree', hfree]
      omega

theorem bflNew_spec (size : Nat) :
    ∃ bfl, bflNew size = .ok bfl ∧ bfl.len = size / 64 + 1 ∧ ∀ m, bfl.Free m ↔ m < size :=
  bflFill_spec size (Nat.le_refl size)

end

end FreeVMS.Thread
