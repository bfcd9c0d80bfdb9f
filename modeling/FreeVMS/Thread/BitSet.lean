import FreeVMS.Thread.BitList

/-!
# The set of a bit free list

Calls on a list that `sys$bfl_new` has made, against the set of the free numbers.  The number that
`sys$bfl_alloc` returns is computed as an `unsigned int` and returned as a pointer, like its -1.
-/

namespace FreeVMS.Thread

open Alloc

/-- `sys$bfl_alloc` with what it returns.  From a cursor behind the array the second loop would leave
    it. -/
def bflAllocPointer (bfl : Bfl) : Except Fault (Nat × Bfl) :=
  if bfl.len < bfl.curpos ∧ firstWord bfl bfl.len 0 = none then .error .outOfBounds
  else
    match bflAlloc bfl with
    | (none, bfl) => .ok (wordSize - 1, bfl)
    | (some n, bfl) => .ok (n % 2 ^ 32, bfl)

inductive BflOp where
  | alloc
  | free (val : Nat)
deriving DecidableEq, Repr

/-- One call after the other, with what the calls of `sys$bfl_alloc` return. -/
def bflRun : List BflOp → Bfl → Except Fault (List Nat × Bfl)
  | [], bfl => .ok ([], bfl)
  | .alloc :: ops, bfl => do
      let (n, bfl) ← bflAllocPointer bfl
      let (out, bfl) ← bflRun ops bfl
      return (n :: out, bfl)
  | .free val :: ops, bfl => do
      let bfl ← bflFree bfl val
      bflRun ops bfl

/-- The calls on a set of numbers below `size`. -/
inductive SetRuns (size : Nat) : (Nat → Prop) → List BflOp → List Nat → (Nat → Prop) → Prop
  | done {S : Nat → Prop} : SetRuns size S [] [] S
  | free {S S' : Nat → Prop} {n : Nat} {ops : List BflOp} {out : List Nat} :
      SetRuns size (fun m => m = n ∨ S m) ops out S' → SetRuns size S (.free n :: ops) out S'
  | alloc {S S' : Nat → Prop} {n : Nat} {ops : List BflOp} {out : List Nat} : n < size → S n →
      SetRuns size (fun m => m ≠ n ∧ S m) ops out S' → SetRuns size S (.alloc :: ops) (n :: out) S'
  | empty {S S' : Nat → Prop} {ops : List BflOp} {out : List Nat} : (∀ n, ¬ S n) →
      SetRuns size S ops out S' → SetRuns size S (.alloc :: ops) ((wordSize - 1) :: out) S'

/-- The list stands for the set `S` of numbers below `size`. -/
structure Represents (size : Nat) (bfl : Bfl) (S : Nat → Prop) : Prop where
  len : bfl.len = size / 64 + 1
  curpos : bfl.curpos ≤ bfl.len
  free : ∀ n, bfl.Free n ↔ S n
  lt : ∀ n, S n → n < size

section

variable {size n : Nat} {bfl bfl' : Bfl} {S : Nat → Prop}

theorem Represents.bounded (h : Represents size bfl S) : bfl.Bounded := by
  intro n hn
  have hlt := h.lt n ((h.free n).mp hn)
  rw [h.len]
  exact Nat.lt_succ_of_le (Nat.div_le_div_right hlt.le)

theorem Represents.put (h : Represents size bfl S) (hn : n < size) :
    ∃ bfl', bflFree bfl n = .ok bfl' ∧ Represents size bfl' fun m => m = n ∨ S m := by
  have hword : n / 64 < bfl.len := by
    rw [h.len]
    omega
  obtain ⟨bfl', hfree, hlen, hcurpos, hset⟩ := bflFree_spec hword
  refine ⟨bfl', hfree, hlen.trans h.len, ?_, fun m => ?_, fun m hm => ?_⟩
  · rw [hlen, hcurpos]
    exact h.curpos
  · rw [hset, h.free]
  · rcases hm with rfl | hm
    · exact hn
    · exact h.lt m hm

/-- A number is taken when there is one, and -1 is returned when there is none. -/
theorem Represents.take (h : Represents size bfl S) (hsize : size < 2 ^ 31) :
    (∃ n bfl', bflAllocPointer bfl = .ok (n, bfl') ∧ n < size ∧ S n ∧
      Represents size bfl' fun m => m ≠ n ∧ S m) ∨
    (bflAllocPointer bfl = .ok (wordSize - 1, bfl) ∧ ∀ n, ¬ S n) := by
  have hin : ¬ (bfl.len < bfl.curpos ∧ firstWord bfl bfl.len 0 = none) := fun hout =>
    absurd h.curpos (Nat.not_le.mpr hout.1)
  rw [bflAllocPointer, if_neg hin]
  rcases bflAlloc_spec h.bounded with ⟨n, hn, htook⟩ | ⟨hnone, hempty⟩
  · have hS : S n := (h.free n).mp htook.free
    have hlt := h.lt n hS
    refine .inl ⟨n, (bflAlloc bfl).2, ?_, hlt, hS, htook.len_eq.trans h.len, ?_, fun m => ?_, ?_⟩
    · have hpair : bflAlloc bfl = (some n, (bflAlloc bfl).2) := Prod.ext hn rfl
      rw [hpair]
      simp only [Nat.mod_eq_of_lt (show n < 2 ^ 32 by omega)]
    · rw [htook.eq]
      exact h.curpos
    · rw [htook.free_iff, h.free]
    · exact fun m hm => h.lt m hm.2
  · refine .inr ⟨?_, fun n hn => hempty n ((h.free n).mpr hn)⟩
    rw [hnone]

/-- The run does on the set what the calls do on the list. -/
theorem bflRun_spec (hsize : size < 2 ^ 31) : ∀ (ops : List BflOp) (bfl : Bfl) (S : Nat → Prop),
    (∀ val, .free val ∈ ops → val < size) → Represents size bfl S →
      ∃ out bfl' S', bflRun ops bfl = .ok (out, bfl') ∧ SetRuns size S ops out S' ∧
        Represents size bfl' S' := by
  intro ops
  induction ops with
  | nil => exact fun bfl S _ h => ⟨[], bfl, S, rfl, .done, h⟩
  | cons op ops ih =>
    intro bfl S hvals h
    have hrest : ∀ val, .free val ∈ ops → val < size := fun val hval =>
      hvals val (List.mem_cons_of_mem _ hval)
    cases op with
    | free val =>
      obtain ⟨bfl₁, hfree, h₁⟩ := h.put (hvals val List.mem_cons_self)
      obtain ⟨out, bfl', S', hrun, hset, h'⟩ := ih bfl₁ _ hrest h₁
      refine ⟨out, bfl', S', ?_, .free hset, h'⟩
      rw [bflRun, hfree]
      exact hrun
    | alloc =>
      rcases h.take hsize with ⟨n, bfl₁, halloc, hlt, hn, h₁⟩ | ⟨halloc, hempty⟩
      · obtain ⟨out, bfl', S', hrun, hset, h'⟩ := ih bfl₁ _ hrest h₁
        refine ⟨n :: out, bfl', S', ?_, .alloc hlt hn hset, h'⟩
        simp only [bflRun, halloc, hrun, bind, Except.bind]
        rfl
      · obtain ⟨out, bfl', S', hrun, hset, h'⟩ := ih bfl S hrest h
        refine ⟨(wordSize - 1) :: out, bfl', S', ?_, .empty hempty hset, h'⟩
        simp only [bflRun, halloc, hrun, bind, Except.bind]
        rfl

end

/-- **The list is a set.**  After `sys$bfl_new`, and wherever the cursor is, every sequence of calls
    returns what it does on the set of the free numbers, and the bits of the list are this set. -/
theorem bit_free_list_is_set {size curpos : Nat} {ops : List BflOp} (hsize : size < 2 ^ 31)
    (hcurpos : curpos < size / 64 + 1) (hvals : ∀ val, .free val ∈ ops → val < size) :
    ∃ new out bfl S, bflNew size = .ok new ∧
      bflRun ops { new with curpos := curpos } = .ok (out, bfl) ∧
      SetRuns size (fun n => n < size) ops out S ∧ Represents size bfl S := by
  obtain ⟨new, hnew, hlen, hfree⟩ := bflNew_spec size
  have hrep : Represents size { new with curpos := curpos } fun n => n < size := by
    refine ⟨hlen, ?_, hfree, fun _ hn => hn⟩
    rw [show ({ new with curpos := curpos } : Bfl).len = new.len from rfl, hlen]
    exact hcurpos.le
  obtain ⟨out, bfl, S, hrun, hset, h⟩ := bflRun_spec hsize ops _ _ hvals hrep
  exact ⟨new, out, bfl, S, hnew, hrun, hset, h⟩

/-- Seventy numbers, in two words, and the cursor at the second one. -/
theorem seventy_is_set : 70 < 2 ^ 31 ∧ 1 < 70 / 64 + 1 ∧ ∃ new out bfl S, bflNew 70 = .ok new ∧
    bflRun [.alloc, .alloc, .free 64, .alloc] { new with curpos := 1 } = .ok (out, bfl) ∧
    SetRuns 70 (fun n => n < 70) [.alloc, .alloc, .free 64, .alloc] out S ∧ Represents 70 bfl S :=
  ⟨by decide, by decide, bit_free_list_is_set (by decide) (by decide) (by simp)⟩

end FreeVMS.Thread
