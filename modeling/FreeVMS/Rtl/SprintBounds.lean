import FreeVMS.Rtl.SprintParts
import FreeVMS.Lib.Stateful

/-!
# The bounds of formatted output

Every store goes through one of two macros, and both keep `InBounds`: the characters are stored at 0,
1, 2 and so on, with equal cursors, and what is left of the output is what they leave of it.  So a run
over a format whose specifications are complete ends at `Done` with `InBounds`.
-/

namespace FreeVMS.Rtl.Sprint

open Run

structure InBounds (length : Nat) (o : Out) : Prop where
  inOrder : o.written.map Write.pos = List.range o.p
  level : ∀ w ∈ o.written, w.p = w.strPtr
  cursors : o.p = o.strPtr
  room : o.p + o.size = length

/-- At `Done` in bounds. -/
def DoneIn (length : Nat) (h : Halt) : Prop := ∃ o, h = .done o ∧ InBounds length o

/-- No signed operation is undefined. -/
def Overflow.Total (v : Overflow) : Prop := ∀ x, (v.int x).isSome ∧ (v.long x).isSome

/-- In bounds all the way through a part of the code. -/
def Inside {α : Type} (length : Nat) (Q : α → Prop) (m : Print α) : Prop :=
  Keeps (DoneIn length) (InBounds length) Q m

variable {e : Env} {length fuel : Nat} {o : Out}

theorem inBounds_start (length : Nat) : InBounds length (Out.start length) where
  inOrder := rfl
  level _ hw := absurd hw List.not_mem_nil
  cursors := rfl
  room := Nat.zero_add length

/-- Both macros store at the cursor. -/
theorem InBounds.store (h : InBounds length o) (hsize : o.size ≠ 0) {pos : Nat} (hpos : pos = o.p)
    (ch : Byte) : InBounds length (o.store pos ch) where
  inOrder := by
    show (o.written ++ [_]).map Write.pos = List.range (o.p + 1)
    rw [List.map_append, h.inOrder, List.range_succ, hpos]
    rfl
  level := by
    intro w hw
    rcases List.mem_append.mp hw with hw | hw
    · exact h.level w hw
    · obtain rfl := List.mem_singleton.mp hw
      exact h.cursors
  cursors := congrArg (· + 1) h.cursors
  room := by
    have hroom := h.room
    show o.p + 1 + (o.size - 1) = length
    omega

theorem toDone_inside {α : Type} {Q : α → Prop} : Inside length Q (toDone : Print α) :=
  fun o h => .error ⟨o, rfl, h⟩

theorem putch_inside (ch : Byte) : Inside length (fun _ => True) (putch ch) := by
  intro o h
  rw [putch]
  split
  · exact toDone_inside (Q := fun _ => True) o h
  · exact .ok ⟨trivial, h.store (by assumption) rfl ch⟩

theorem nextArg_inside : Inside length (fun _ => True) (nextArg e) :=
  fun _ h => .ok ⟨trivial, h.inOrder, h.level, h.cursors, h.room⟩

theorem defined_inside {α : Type} {x : Option α} (h : x.isSome) :
    Inside length (fun _ => True) (defined x) := by
  obtain ⟨y, rfl⟩ := Option.isSome_iff_exists.mp h
  exact .pure trivial

theorem int_inside (h : e.overflow.Total) (x : Int) : Inside length (fun _ => True) (int e x) :=
  .ite (fun _ => .pure trivial) fun _ => defined_inside (h x).1

theorem long_inside (h : e.overflow.Total) (x : Int) : Inside length (fun _ => True) (long e x) :=
  .ite (fun _ => .pure trivial) fun _ => defined_inside (h x).2

theorem putArg_inside : Inside length (fun _ => True) (putArg e) := by
  intro o ho
  rw [putArg]
  split
  · exact toDone_inside (Q := fun _ => True) o ho
  · exact (nextArg_inside.bind fun _ _ => putch_inside _) o ho

theorem closed_inside (h : e.overflow.Total) (length : Nat) :
    Closed e fun _ m => Inside length (fun _ => True) m where
  pure _ := .pure trivial
  bind hm hf := hm.bind fun x _ => hf x
  putch := putch_inside
  nextArg := nextArg_inside
  putArg := putArg_inside
  int := int_inside h
  long := long_inside h

theorem textPass_inside {u : List Byte} (hfuel : u.length < fuel) :
    Inside length (fun _ => True) (textPass fuel u) := by
  have hsize : Inside length (fun _ => True) sizeTest := by
    intro o ho
    rw [sizeTest]
    split
    · exact toDone_inside (Q := fun _ => True) o ho
    · exact .ok ⟨trivial, ho⟩
  refine hsize.bind fun _ _ => ?_
  induction u generalizing fuel with
  | nil =>
    cases fuel with
    | zero => exact absurd hfuel (Nat.not_lt_zero _)
    | succ fuel => exact .pure trivial
  | cons c u ih =>
    cases fuel with
    | zero => exact absurd hfuel (Nat.not_lt_zero _)
    | succ fuel =>
      intro o ho
      show Ends _ _ (if o.size = 0 then toDone o else copyText fuel u (o.store o.strPtr c))
      split
      · exact toDone_inside (Q := fun _ => True) o ho
      · exact ih (Nat.lt_of_succ_lt_succ hfuel) _
          (ho.store (by assumption) ho.cursors.symm c)

/-- From a complete rest of the format the run goes to `Done`. -/
theorem passes_done (h : e.overflow.Total) {fmt : Format} {r : List Byte}
    (hr : Complete (· ≠ chr 'f') r) (hfuel : r.length < fuel) {k i : Nat} (hk : r.length < k)
    (hholds : Holds fmt.c i r) (hend : i + r.length = fmt.lengthTrim) (numpr : Int)
    (ho : InBounds length o) : DoneIn length (passes e fuel fmt k i numpr o) := by
  induction hr generalizing k i numpr o with
  | @text u hu =>
    cases k with
    | zero => exact absurd hk (Nat.not_lt_zero _)
    | succ k =>
      rw [passes_text e fuel k numpr o hu hholds hend]
      have hinside := textPass_inside hfuel o ho
      generalize textPass fuel u o = res at hinside ⊢
      cases hinside with
      | ok hok => exact ⟨_, rfl, hok.2⟩
      | error hdone => exact hdone
  | @spec u v rest p hu hp hconv _ ih =>
    cases k with
    | zero => exact absurd hk (Nat.not_lt_zero _)
    | succ k =>
      obtain ⟨-, -, -, hlen⟩ := pieces?_length hp
      have hall : (u ++ chr '%' :: v).length = u.length + (v.length + 1) := List.length_append
      obtain ⟨j, hj, hrest, hpass⟩ :=
        pass_spec e fuel hu hp hholds (by omega) (by omega)
      have hinside : Inside length (fun _ => True) (specPass e fuel u p numpr) :=
        (closed_inside h length).specPass (textPass_inside (by omega)) hp (by omega)
          (fun hf => absurd hf hconv) numpr
      replace hinside := hinside o ho
      rw [passes_succ e o (hpass numpr)]
      generalize specPass e fuel u p numpr o = res at hinside ⊢
      cases hinside with
      | ok hok => exact ih (by omega) (by omega) hrest (by omega) _ hok.2
      | error hdone => exact hdone

/-- Formatted output stays in bounds. -/
theorem sprint_in_bounds (h : e.overflow.Total) {fmt : Format} {t : List Byte} (ht : fmt.HasText t)
    (hne : t ≠ []) (hcomplete : Complete (· ≠ chr 'f') t) (length : Nat) (hfuel : t.length < fuel) :
    ∃ o, rtlSprint e fuel fmt length = .done o ∧ o.written.map Write.pos = List.range o.lengthTrim ∧
      (∀ w ∈ o.written, w.p = w.strPtr) ∧ o.p = o.strPtr ∧ o.lengthTrim ≤ length := by
  have hpos : fmt.lengthTrim ≠ 0 := by
    rw [ht.1]
    exact mt List.length_eq_zero_iff.mp hne
  obtain ⟨o, hrun, ho⟩ := passes_done h hcomplete hfuel hfuel ht.2 (by rw [ht.1, Nat.zero_add]) 0
    (inBounds_start length)
  refine ⟨o, ?_, ho.inOrder, ho.level, ho.cursors, ?_⟩
  · rw [rtlSprint, if_neg hpos, hrun]
  · have hroom := ho.room
    show o.p ≤ length
    omega

/-- Overflows that wrap around. -/
def wrapping : Env where
  arg _ := ⟨42, 42, 0, 0, []⟩
  overflow := ⟨fun x => some (x.bmod (2 ^ 32)), fun x => some (x.bmod (2 ^ 64))⟩
  floating :=
    { nonneg _ := true, negative _ := false, oneOrMore _ := false, neg := id, toUlong _ := some 0,
      subUlong x _ := x, timesTen := id }

theorem percent_d_in_bounds :
    ∃ o, rtlSprint wrapping 3 ⟨2, fun i => [chr '%', chr 'd'].getD i 0⟩ 8 = .done o ∧
      o.written.map Write.pos = List.range o.lengthTrim ∧ (∀ w ∈ o.written, w.p = w.strPtr) ∧
      o.p = o.strPtr ∧ o.lengthTrim ≤ 8 :=
  sprint_in_bounds (fun _ => ⟨rfl, rfl⟩) (t := [chr '%', chr 'd']) ⟨rfl, rfl, rfl, trivial⟩
    (List.cons_ne_nil _ _)
    (.spec (u := []) (v := [chr 'd']) List.not_mem_nil rfl (by decide) (.text List.not_mem_nil)) 8
    (by decide)

end FreeVMS.Rtl.Sprint
