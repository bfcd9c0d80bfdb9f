import FreeVMS.Rtl.Tparse
import Mathlib.Logic.Relation

/-!
# The layout of the state table

`TPA$MAKE_TRAN` lays out the transitions of a state, and three parts of `lib$tparse` read them: the
head of the loop, the accepting path field by field, and `next_state` by the flags. They agree,
but for a transition that its action routine rejects: there `next_state` counts the fields that
the accepting path has passed a second time.
-/

namespace FreeVMS.Rtl.Tparse

/-! ## The encoder -/

/-- The type of a transition: a character, keyword or special type, or a subexpression with its
displacement. -/
inductive TranType where
  | code (typeval : Fin 512)
  | subexpr (displacement : BitVec 16)

/-- The arguments of `TPA$MAKE_TRAN`, as they are stored. A mask comes with an address only. -/
structure Transition where
  type : TranType
  target : Option (BitVec 16)
  action : Option (BitVec 32)
  addr : Option (BitVec 32 × Option (BitVec 32))
  param : Option (BitVec 32)

namespace Transition

def typeval (t : Transition) : Nat :=
  match t.type with
  | .code typeval => typeval
  | .subexpr _ => tpaSubexpr

def isSubexpr (t : Transition) : Bool :=
  match t.type with
  | .code _ => false
  | .subexpr _ => true

def hasMask (t : Transition) : Bool :=
  match t.addr with
  | some (_, some _) => true
  | _ => false

/-- `TPA$TYPE` -/
def typeWord (t : Transition) (final : Bool) : BitVec 16 :=
  BitVec.ofNat 16 (t.typeval + t.isSubexpr.toNat * 2048 + t.param.isSome.toNat * 512 +
    t.action.isSome.toNat * 32768 + t.hasMask.toNat * 8192 + t.addr.isSome.toNat * 16384 +
    t.target.isSome.toNat * 4096 + final.toNat * 1024)

end Transition

def wordBytes (w : BitVec 16) : List Byte := [w.setWidth 8, (w >>> 8).setWidth 8]

def longBytes (l : BitVec 32) : List Byte :=
  [l.setWidth 8, (l >>> 8).setWidth 8, (l >>> 16).setWidth 8, (l >>> 24).setWidth 8]

/-- A field that may be missing. -/
def field {α : Type} (bytes : α → List Byte) : Option α → List Byte
  | none => []
  | some a => bytes a

namespace Transition

/-- `TPA$MAKE_SUB` -/
def subBytes (t : Transition) : List Byte :=
  match t.type with
  | .code _ => []
  | .subexpr displacement => wordBytes displacement

/-- The address and then the mask. -/
def addrBytes (t : Transition) : List Byte :=
  field (fun a => longBytes a.1 ++ field longBytes a.2) t.addr

/-- `TPA$MAKE_TRAN` -/
def bytes (t : Transition) (final : Bool) : List Byte :=
  wordBytes (t.typeWord final) ++ field (fun _ => [1]) t.param ++ t.subBytes ++
    field longBytes t.param ++ field longBytes t.action ++ t.addrBytes ++ field wordBytes t.target

/-- How many bytes a transition takes. -/
def size (t : Transition) : Nat := (t.bytes false).length

end Transition

/-- `$STATE_ITEMS`: the last transition of a state is marked. -/
def stateBytes : List Transition → List Byte
  | [] => []
  | t :: ts => t.bytes ts.isEmpty ++ stateBytes ts

/-- The bytes `bs` are at the address `p`. -/
def LaidOut (rom : Memory) (p : Nat) (bs : List Byte) : Prop := bytesAt rom p bs.length = bs

theorem LaidOut.get {rom : Memory} {p i : Nat} {bs : List Byte} (h : LaidOut rom p bs)
    (hi : i < bs.length) : rom (p + i) = bs[i] := by
  have hget : (bytesAt rom p bs.length)[i]? = bs[i]? := by rw [h]
  simpa [bytesAt, hi] using hget

theorem LaidOut.append {rom : Memory} {p : Nat} {bs cs : List Byte}
    (h : LaidOut rom p (bs ++ cs)) : LaidOut rom p bs ∧ LaidOut rom (p + bs.length) cs := by
  constructor
  · apply List.ext_getElem (length_bytesAt _ _ _)
    intro i _ hi
    have hget := h.get (i := i) (by rw [List.length_append]; omega)
    rw [List.getElem_append_left hi] at hget
    simpa [bytesAt] using hget
  · apply List.ext_getElem (length_bytesAt _ _ _)
    intro i _ hi
    have hget := h.get (i := bs.length + i) (by rw [List.length_append]; omega)
    rw [List.getElem_append_right (by omega)] at hget
    simpa [bytesAt, Nat.add_assoc] using hget

/-! ## The flags -/

theorem length_wordBytes (w : BitVec 16) : (wordBytes w).length = 2 := rfl

theorem length_longBytes (l : BitVec 32) : (longBytes l).length = 4 := rfl

/-- A flag is a bit of the type word. -/
theorem testBit_of_div {x i : Nat} {b : Bool} (h : x / 2 ^ i % 2 = b.toNat) : x.testBit i = b := by
  rw [Nat.testBit_eq_decide_div_mod_eq, h]
  cases b <;> rfl

namespace Transition

variable (t : Transition) (final : Bool)

theorem typeval_lt : t.typeval < 512 := by
  rw [typeval]
  split
  · next v _ => exact v.isLt
  · decide

theorem hasMask_le : t.hasMask.toNat ≤ t.addr.isSome.toNat := by
  rw [hasMask]
  split
  · next h => simp [h]
  · simp

/-- All flags of the type word. -/
theorem typeWord_bits :
    (t.typeWord final).getLsbD 9 = t.param.isSome ∧ (t.typeWord final).getLsbD 10 = final ∧
    (t.typeWord final).getLsbD 11 = t.isSubexpr ∧
    (t.typeWord final).getLsbD 12 = t.target.isSome ∧
    (t.typeWord final).getLsbD 13 = t.hasMask ∧ (t.typeWord final).getLsbD 14 = t.addr.isSome ∧
    (t.typeWord final).getLsbD 15 = t.action.isSome := by
  have hval := t.typeval_lt
  have hsub := t.isSubexpr.toNat_le
  have hparam := t.param.isSome.toNat_le
  have haction := t.action.isSome.toNat_le
  have hmask := t.hasMask.toNat_le
  have haddr := t.addr.isSome.toNat_le
  have htarget := t.target.isSome.toNat_le
  have hfinal := final.toNat_le
  simp only [typeWord, BitVec.getLsbD_ofNat]
  refine ⟨?_, ?_, ?_, ?_, ?_, ?_, ?_⟩ <;>
    rw [testBit_of_div, decide_eq_true (by omega), Bool.true_and] <;> omega

/-- The type as `lib$tparse` reads it: with the flags byte if there is one. -/
def typeRead : BitVec 32 :=
  if t.param.isSome then (t.typeWord final).setWidth 32 ||| 0x10000 else (t.typeWord final).setWidth 32

theorem typeRead_low {i : Nat} (hi : i < 16) :
    (t.typeRead final).getLsbD i = (t.typeWord final).getLsbD i := by
  have hbits : ∀ i < 16, (0x10000 : BitVec 32).getLsbD i = false := by decide
  have hbit := hbits i hi
  rw [typeRead]
  split
  · rw [BitVec.getLsbD_or, hbit, Bool.or_false, BitVec.getLsbD_setWidth,
      decide_eq_true (by omega), Bool.true_and]
  · rw [BitVec.getLsbD_setWidth, decide_eq_true (by omega), Bool.true_and]

@[simp] theorem extraflag_typeRead : extraflag (t.typeRead final) = t.param.isSome :=
  (t.typeRead_low final (by decide)).trans (t.typeWord_bits final).1

@[simp] theorem lastflag_typeRead : lastflag (t.typeRead final) = final :=
  (t.typeRead_low final (by decide)).trans (t.typeWord_bits final).2.1

@[simp] theorem extflag_typeRead : extflag (t.typeRead final) = t.isSubexpr :=
  (t.typeRead_low final (by decide)).trans (t.typeWord_bits final).2.2.1

@[simp] theorem tranflag_typeRead : tranflag (t.typeRead final) = t.target.isSome :=
  (t.typeRead_low final (by decide)).trans (t.typeWord_bits final).2.2.2.1

@[simp] theorem maskflag_typeRead : maskflag (t.typeRead final) = t.hasMask :=
  (t.typeRead_low final (by decide)).trans (t.typeWord_bits final).2.2.2.2.1

@[simp] theorem addrflag_typeRead : addrflag (t.typeRead final) = t.addr.isSome :=
  (t.typeRead_low final (by decide)).trans (t.typeWord_bits final).2.2.2.2.2.1

@[simp] theorem actflag_typeRead : actflag (t.typeRead final) = t.action.isSome :=
  (t.typeRead_low final (by decide)).trans (t.typeWord_bits final).2.2.2.2.2.2

@[simp] theorem parmflag_typeRead : parmflag (t.typeRead final) = t.param.isSome := by
  rw [parmflag, typeRead]
  split
  · next h =>
    rw [BitVec.getLsbD_or, h]
    simp
  · next h =>
    rw [BitVec.getLsbD_setWidth, BitVec.getLsbD_of_ge _ _ (Nat.le_refl 16)]
    simpa using h

/-- The bytes of a transition, field by field. -/
theorem length_bytes :
    (t.bytes final).length = 2 + (if t.param.isSome then 1 else 0) +
      (if t.isSubexpr then 2 else 0) + (if t.param.isSome then 4 else 0) +
      (if t.action.isSome then 4 else 0) + (if t.addr.isSome then 4 else 0) +
      (if t.hasMask then 4 else 0) + (if t.target.isSome then 2 else 0) := by
  obtain ⟨type, target, action, addr, param⟩ := t
  have hsub : (subBytes ⟨type, target, action, addr, param⟩).length =
      if isSubexpr ⟨type, target, action, addr, param⟩ then 2 else 0 := by
    cases type <;> rfl
  have haddr : (addrBytes ⟨type, target, action, addr, param⟩).length =
      (if addr.isSome then 4 else 0) +
        (if hasMask ⟨type, target, action, addr, param⟩ then 4 else 0) := by
    rcases addr with _ | ⟨a, _ | mask⟩ <;> rfl
  simp only [bytes, List.length_append, hsub, haddr, length_wordBytes]
  cases target <;> cases action <;> cases param <;>
    simp only [field, List.length_nil, List.length_singleton, length_wordBytes, length_longBytes,
      Option.isSome_none, Option.isSome_some, Bool.false_eq_true, if_false, if_true] <;> omega

theorem length_bytes_eq_size : (t.bytes final).length = t.size := by
  rw [size, length_bytes, length_bytes]

end Transition

/-! ## The decoders -/

theorem wordAt_of_laidOut {rom : Memory} {p : Nat} {w : BitVec 16}
    (h : LaidOut rom p (wordBytes w)) : wordAt rom p = w := by
  have h0 : rom p = w.setWidth 8 := h.get (i := 0) (by decide : 0 < 2)
  have h1 : rom (p + 1) = (w >>> 8).setWidth 8 := h.get (i := 1) (by decide : 1 < 2)
  rw [wordAt, h0, h1]
  have hw := w.isLt
  apply BitVec.eq_of_toNat_eq
  simp only [BitVec.toNat_append, BitVec.toNat_setWidth, BitVec.toNat_ushiftRight,
    Nat.shiftRight_eq_div_pow]
  rw [← Nat.shiftLeft_add_eq_or_of_lt (Nat.mod_lt _ (by decide)), Nat.shiftLeft_eq]
  omega

/-- The head of the loop on a transition. -/
theorem readHeader_of_laidOut {rom : Memory} {p : Nat} {t : Transition} {final : Bool}
    (h : LaidOut rom p (t.bytes final)) :
    readHeader rom p = (t.typeRead final, p + 2 + if t.param.isSome then 1 else 0) := by
  simp only [Transition.bytes, List.append_assoc] at h
  obtain ⟨hword, hrest⟩ := h.append
  have hextra : extraflag ((t.typeWord final).setWidth 32) = t.param.isSome := by
    rw [extraflag, BitVec.getLsbD_setWidth, decide_eq_true (by decide), Bool.true_and,
      (t.typeWord_bits final).1]
  rw [readHeader, wordAt_of_laidOut hword]
  simp only [hextra, Transition.typeRead]
  cases hparam : t.param with
  | none => rfl
  | some param =>
    rw [hparam] at hrest
    have hflags2 : rom (p + 2) = 1 := hrest.append.1.get (i := 0) Nat.zero_lt_one
    simp only [hflags2, Option.isSome_some, if_true]
    rfl

theorem nextState_eq (state : Nat) (type : BitVec 32) :
    nextState state type = state + (if extraflag type then 4 else 0) +
      (if extflag type then 2 else 0) + (if actflag type then 4 else 0) +
      (if addrflag type then 4 else 0) + (if maskflag type then 4 else 0) +
      (if tranflag type then 2 else 0) := by
  rw [nextState]
  split_ifs <;> rfl

/-- From behind the head of a transition `next_state` comes to the next one. -/
theorem nextState_of_laidOut {rom : Memory} {p state : Nat} {type : BitVec 32} {t : Transition}
    {final : Bool} (h : LaidOut rom p (t.bytes final)) (hread : readHeader rom p = (type, state)) :
    nextState state type = p + t.size := by
  rw [readHeader_of_laidOut h] at hread
  obtain ⟨rfl, rfl⟩ := Prod.mk.inj hread
  rw [nextState_eq, ← t.length_bytes_eq_size final, t.length_bytes final]
  simp only [Transition.extraflag_typeRead, Transition.extflag_typeRead,
    Transition.actflag_typeRead, Transition.addrflag_typeRead, Transition.maskflag_typeRead,
    Transition.tranflag_typeRead]
  omega

/-! ## Where the activations are -/

/-- The machine comes from `m` to `m'`. -/
def Runs (P : Parser) : Machine → Machine → Prop :=
  Relation.ReflTransGen fun m m' => step P m = some m'

theorem runs_runFor (P : Parser) (n : Nat) (m : Machine) : Runs P m (runFor P n m) := by
  induction n generalizing m with
  | zero => exact .refl
  | succ n ih =>
    rw [runFor]
    cases hstep : step P m with
    | none => exact .refl
    | some m' => exact .head hstep (ih m')

/-- How far the accepting path is past the head when it comes to the action routine. -/
def beforeAction (type : BitVec 32) : Nat :=
  (if extflag type then 2 else 0) + if parmflag type then 4 else 0

/-- How far it is past the head behind the action routine. -/
def behindAction (type : BitVec 32) : Nat := beforeAction type + if actflag type then 4 else 0

/-- The local variables are those of the transition at `curpos`, `n` bytes behind its head. -/
def Located (rom : Memory) (l : Locals) (n : Nat) : Prop :=
  ∃ state, readHeader rom l.curpos = (l.type, state) ∧ l.state = state + n

/-- What the local variables are at each place. -/
def PcPlaced (rom : Memory) : Pc → Prop
  | .test l _ => Located rom l 0
  | .act l => actflag l.type ∧ Located rom l (beforeAction l.type)
  | .verdict l ifval =>
    (ifval = false → actflag l.type) ∧ Located rom l (behindAction l.type)
  | _ => True

structure Placed (rom : Memory) (m : Machine) : Prop where
  pc : PcPlaced rom m.pc
  stack : ∀ f ∈ m.stack, Located rom f.locals 0

variable {P : Parser}

theorem placed_enter (state : Nat) (tpa : Tpa) (w : World) {stack : List Frame}
    (hstack : ∀ f ∈ stack, Located P.rom f.locals 0) : Placed P.rom (enter state tpa w stack) := by
  rw [enter]
  split <;> exact ⟨trivial, hstack⟩

theorem placed_found {l : Locals} (hl : Located P.rom l 0) {stack : List Frame}
    (hstack : ∀ f ∈ stack, Located P.rom f.locals 0) :
    ∀ r, Placed P.rom (found P l stack r)
  | (.ifval _, _, _) => ⟨hl, hstack⟩
  | (.subexpr, _, _) => placed_enter _ _ _ fun f hf => by
    rcases List.mem_cons.mp hf with rfl | hf
    · exact hl
    · exact hstack f hf
  | (.invtype, _, _) => ⟨trivial, hstack⟩
  | (.badKey, _, _) => ⟨trivial, hstack⟩

theorem placed_look (state : Nat) (tpa : Tpa) (w : World) {stack : List Frame}
    (hstack : ∀ f ∈ stack, Located P.rom f.locals 0) :
    Placed P.rom (look P state tpa w stack) :=
  placed_found ⟨_, rfl, rfl⟩ hstack _

theorem placed_take (l : Locals) (tpa : Tpa) (w : World) {stack : List Frame}
    (hl : Located P.rom l 0) (hstack : ∀ f ∈ stack, Located P.rom f.locals 0) :
    Placed P.rom (take P l tpa w stack) := by
  refine ⟨?_, hstack⟩
  obtain ⟨state, hread, hstate⟩ := hl
  simp only [take, hstate, Nat.add_zero]
  have hfields : (if parmflag l.type then (if extflag l.type then state + 2 else state) + 4
      else if extflag l.type then state + 2 else state) = state + beforeAction l.type := by
    rw [beforeAction]
    split_ifs <;> rfl
  rw [hfields]
  by_cases hact : actflag l.type
  · rw [if_pos hact]
    exact ⟨hact, state, hread, rfl⟩
  · rw [if_neg hact]
    refine ⟨(fun h => nomatch h), state, hread, ?_⟩
    simp [behindAction, hact]

theorem placed_leave (l : Locals) (tpa : Tpa) (w : World) {stack : List Frame}
    (hstack : ∀ f ∈ stack, Located P.rom f.locals 0) : Placed P.rom (leave l tpa w stack) := by
  rw [leave]
  split <;> exact ⟨trivial, hstack⟩

theorem placed_accept (l : Locals) (tpa : Tpa) (w : World) {stack : List Frame}
    (hstack : ∀ f ∈ stack, Located P.rom f.locals 0) : Placed P.rom (accept P l tpa w stack) := by
  simp only [accept]
  split_ifs <;> exact ⟨trivial, hstack⟩

theorem placed_resume (sts : BitVec 32) (f : Frame) (tpa : Tpa) (w : World) {stack : List Frame}
    (hf : Located P.rom f.locals 0) (hstack : ∀ f ∈ stack, Located P.rom f.locals 0) :
    Placed P.rom (resume sts f tpa w stack) := by
  simp only [resume]
  split <;> exact ⟨hf, hstack⟩

/-- Every step keeps the local variables in place. -/
theorem placed_step {m m' : Machine} (h : Placed P.rom m) (hstep : step P m = some m') :
    Placed P.rom m' := by
  obtain ⟨tpa, w, stack, pc⟩ := m
  obtain ⟨hpc, hstack⟩ := h
  cases pc with
  | loop state =>
    obtain rfl := Option.some.inj hstep
    exact placed_look state tpa w hstack
  | test l ifval =>
    cases ifval with
    | true =>
      obtain rfl := Option.some.inj hstep
      exact placed_take l tpa w hpc hstack
    | false =>
      obtain rfl := Option.some.inj hstep
      exact placed_leave l tpa w hstack
  | act l =>
    obtain rfl := Option.some.inj hstep
    obtain ⟨hact, state, hread, hstate⟩ := hpc
    refine ⟨⟨fun _ => hact, state, hread, ?_⟩, hstack⟩
    simp only [hstate, behindAction, hact, if_true]
    omega
  | verdict l ifval =>
    cases ifval with
    | true =>
      obtain rfl := Option.some.inj hstep
      exact placed_accept l tpa w hstack
    | false =>
      obtain rfl := Option.some.inj hstep
      exact placed_leave l _ w hstack
  | skip type state =>
    simp only [step] at hstep
    split at hstep <;> obtain rfl := Option.some.inj hstep <;> exact ⟨trivial, hstack⟩
  | ret sts =>
    cases stack with
    | nil => cases hstep
    | cons f stack =>
      obtain rfl := Option.some.inj hstep
      exact placed_resume sts f tpa w (hstack f List.mem_cons_self)
        fun g hg => hstack g (List.mem_cons_of_mem f hg)
  | crash => cases hstep

/-- In every state of a run the local variables are in place. -/
theorem placed_of_runs {state : Nat} {tpa : Tpa} {w : World} {m : Machine}
    (hrun : Runs P (libTparse state tpa w) m) : Placed P.rom m := by
  induction hrun with
  | refl => exact placed_enter state tpa w fun f hf => nomatch hf
  | tail _ hstep ih => exact placed_step ih hstep

/-! ## Leaving an entry -/

/-- The ways to leave an entry without a transfer to a target: its type does not match or its
subexpression fails, its action routine rejects it, it is accepted without a target. -/
inductive Way where
  | skipped | rejected | accepted
  deriving DecidableEq

/-- The entry that the next step leaves, and how. -/
def wayOf : Pc → Option (Locals × Way)
  | .test l false => some (l, .skipped)
  | .verdict l false => some (l, .rejected)
  | .verdict l true => if tranflag l.type then none else some (l, .accepted)
  | _ => none

/-- From `m` the activation comes to `m'`: to the head of its loop again, or to its return. -/
inductive Leaves (P : Parser) : Machine → Machine → Prop
  | loop {m m' : Machine} {state : Nat} :
      step P m = some m' → m'.pc = .loop state → Leaves P m m'
  | ret {m m' : Machine} {sts : BitVec 32} :
      step P m = some m' → m'.pc = .ret sts → Leaves P m m'
  | skip {m m₁ m' : Machine} {type : BitVec 32} {state : Nat} :
      step P m = some m₁ → m₁.pc = .skip type state → Leaves P m₁ m' → Leaves P m m'

/-- Where the transition `t` at `p`, before the transitions `ts` of its state, is to be left to. -/
def LeftTo : Way → Nat → Transition → List Transition → Pc → Prop
  | .accepted, p, t, ts, pc => pc = .loop (p + (stateBytes (t :: ts)).length)
  | _, _, _, [], pc => ∃ sts, pc = .ret sts
  | _, p, t, _ :: _, pc => pc = .loop (p + t.size)

/-- One step to the head of the loop leaves nothing open. -/
theorem leaves_loop_unique {m m₁ m' : Machine} {state : Nat} (hstep : step P m = some m₁)
    (hpc : m₁.pc = .loop state) (h : Leaves P m m') : m' = m₁ := by
  cases h with
  | loop hstep' _ => exact Option.some.inj (hstep'.symm.trans hstep)
  | ret hstep' _ => exact Option.some.inj (hstep'.symm.trans hstep)
  | skip hstep' hpc' _ =>
    obtain rfl := Option.some.inj (hstep'.symm.trans hstep)
    rw [hpc] at hpc'
    cases hpc'

/-- The rest of a state is skipped. -/
theorem leaves_skip {ts : List Transition} : ∀ (type : BitVec 32) (state : Nat) (tpa : Tpa)
    (w : World) (stack : List Frame), lastflag type = ts.isEmpty →
    LaidOut P.rom state (stateBytes ts) →
    Leaves P ⟨tpa, w, stack, .skip type state⟩
      ⟨tpa, w, stack, .loop (state + (stateBytes ts).length)⟩ := by
  induction ts with
  | nil =>
    intro type state tpa w stack hlast _
    refine .loop ?_ rfl
    simp only [step, hlast, List.isEmpty_nil, if_true, stateBytes, List.length_nil, Nat.add_zero]
  | cons t ts ih =>
    intro type state tpa w stack hlast hlaid
    obtain ⟨ht, hts⟩ := LaidOut.append hlaid
    have hread := readHeader_of_laidOut ht
    rw [t.length_bytes_eq_size] at hts
    have hnext := ih _ _ tpa w stack (t.lastflag_typeRead ts.isEmpty) hts
    rw [Nat.add_assoc, ← t.length_bytes_eq_size ts.isEmpty, ← List.length_append] at hnext
    refine .skip ?_ rfl hnext
    simp only [step, hlast, List.isEmpty_cons, Bool.false_eq_true, if_false, hread,
      nextState_of_laidOut ht hread, t.length_bytes_eq_size]

theorem nextState_add (state n : Nat) (type : BitVec 32) :
    nextState (state + n) type = nextState state type + n := by
  rw [nextState_eq, nextState_eq]
  omega

theorem leave_stack (l : Locals) (tpa : Tpa) (w : World) (stack : List Frame) :
    (leave l tpa w stack).stack = stack := by
  rw [leave]
  split <;> rfl

/-- The last transition of a state ends the parse, another one is followed by what `next_state`
finds. -/
theorem leave_pc (l : Locals) (tpa : Tpa) (w : World) (stack : List Frame) :
    (∃ sts, lastflag l.type = true ∧ (leave l tpa w stack).pc = .ret sts) ∨
    (lastflag l.type = false ∧ (leave l tpa w stack).pc = .loop (nextState l.state l.type)) := by
  rw [leave]
  split
  · next h => exact Or.inl ⟨_, h, rfl⟩
  · next h => exact Or.inr ⟨by simpa using h, rfl⟩

/-- Leaving the transition `t` by `next_state` when the state pointer is `n` bytes behind its
head. -/
theorem leaves_leave {m : Machine} {l : Locals} {tpa : Tpa} {way : Way} {n : Nat}
    {t : Transition} {ts : List Transition} (hway : way ≠ .accepted)
    (hstep : step P m = some (leave l tpa m.world m.stack)) (hl : Located P.rom l n)
    (ht : LaidOut P.rom l.curpos (t.bytes ts.isEmpty)) :
    (∃ m', Leaves P m m' ∧ m'.stack = m.stack ∧ LeftTo way l.curpos t ts m'.pc) ↔
      n = 0 ∨ ts = [] := by
  obtain ⟨state, hread, hstate⟩ := hl
  have hlast : lastflag l.type = ts.isEmpty := by
    rw [readHeader_of_laidOut ht] at hread
    rw [← (Prod.mk.inj hread).1, t.lastflag_typeRead]
  have hnext : nextState l.state l.type = l.curpos + t.size + n := by
    rw [hstate, nextState_add, nextState_of_laidOut ht hread]
  rcases leave_pc l tpa m.world m.stack with ⟨sts, hlast', hpc⟩ | ⟨hlast', hpc⟩
  · obtain rfl : ts = [] := by simpa [hlast] using hlast'
    refine iff_of_true ⟨_, .ret hstep hpc, leave_stack _ _ _ _, ?_⟩ (Or.inr rfl)
    cases way with
    | accepted => exact absurd rfl hway
    | skipped => exact ⟨sts, hpc⟩
    | rejected => exact ⟨sts, hpc⟩
  · cases ts with
    | nil => simp [hlast] at hlast'
    | cons u us =>
      have hleft : ∀ pc, LeftTo way l.curpos t (u :: us) pc ↔ pc = .loop (l.curpos + t.size) := by
        intro pc
        cases way with
        | accepted => exact absurd rfl hway
        | skipped => exact Iff.rfl
        | rejected => exact Iff.rfl
      rw [hnext] at hpc
      constructor
      · rintro ⟨m', hleaves, -, hright⟩
        obtain rfl := leaves_loop_unique hstep hpc hleaves
        rw [hleft, hpc] at hright
        have hpos := Pc.loop.inj hright
        exact Or.inl (by omega)
      · rintro (rfl | h)
        · exact ⟨_, .loop hstep hpc, leave_stack _ _ _ _, (hleft _).mpr hpc⟩
        · cases h

/-- The accepting path ends behind the transition. -/
theorem storeAccepted_fst (rom : Memory) (type : BitVec 32) (state : Nat) (tpa : Tpa) (m : Memory)
    (hmask : maskflag type → addrflag type) :
    (storeAccepted rom type state tpa m).1 =
      state + (if addrflag type then 4 else 0) + if maskflag type then 4 else 0 := by
  rw [storeAccepted]
  split_ifs with h1 h2 h3
  · rfl
  · rfl
  · exact absurd (hmask h3) h1
  · rfl

/-- Acceptance without a target. -/
theorem leaves_accept {m : Machine} {l : Locals} {t : Transition} {ts : List Transition}
    (hpc : m.pc = .verdict l true) (htran : tranflag l.type = false)
    (hl : Located P.rom l (behindAction l.type))
    (hlaid : LaidOut P.rom l.curpos (stateBytes (t :: ts))) :
    ∃ m', Leaves P m m' ∧ m'.stack = m.stack ∧ LeftTo .accepted l.curpos t ts m'.pc := by
  obtain ⟨state, hread, hstate⟩ := hl
  obtain ⟨ht, hts⟩ := LaidOut.append hlaid
  rw [readHeader_of_laidOut ht] at hread
  obtain ⟨htype, rfl⟩ := Prod.mk.inj hread
  have hend : (storeAccepted P.rom l.type l.state m.tpa m.world.memory).1 =
      l.curpos + (t.bytes ts.isEmpty).length := by
    have hmask : maskflag l.type → addrflag l.type := by
      rw [← htype, t.maskflag_typeRead, t.addrflag_typeRead]
      intro h
      have hle := t.hasMask_le
      rw [h] at hle
      cases haddr : t.addr.isSome with
      | true => rfl
      | false => simp [haddr] at hle
    rw [← htype, t.tranflag_typeRead] at htran
    rw [storeAccepted_fst _ _ _ _ _ hmask, hstate, t.length_bytes ts.isEmpty, ← htype]
    simp only [behindAction, beforeAction, Transition.extflag_typeRead,
      Transition.parmflag_typeRead, Transition.actflag_typeRead, Transition.addrflag_typeRead,
      Transition.maskflag_typeRead, htran]
    simp only [Bool.false_eq_true, if_false]
    omega
  have hskip := leaves_skip l.type _ { m.tpa with vAmbig := false }
    { m.world with memory := (storeAccepted P.rom l.type l.state m.tpa m.world.memory).2 } m.stack
    (by rw [← htype, t.lastflag_typeRead]) hts
  refine ⟨_, .skip ?_ rfl hskip, rfl, ?_⟩
  · simp only [step, hpc, accept, htran, hend, Bool.false_eq_true, if_false]
  · simp only [LeftTo, stateBytes, List.length_append, Nat.add_assoc]

/-- **Layout of the state table.** In every run, the step that leaves a transition laid out as the
macros do comes to the next transition, to the end of the parse or behind the state, exactly
unless the action routine rejects a transition that is not the last of its state. -/
theorem table_layout (P : Parser) (start : Nat) (tpa : Tpa) (w : World) (m : Machine)
    (hrun : Runs P (libTparse start tpa w) m) (l : Locals) (way : Way)
    (hway : wayOf m.pc = some (l, way)) (t : Transition) (ts : List Transition)
    (hlaid : LaidOut P.rom l.curpos (stateBytes (t :: ts))) :
    (∃ m', Leaves P m m' ∧ m'.stack = m.stack ∧ LeftTo way l.curpos t ts m'.pc) ↔
      ¬ (way = .rejected ∧ ts ≠ []) := by
  have hplaced := (placed_of_runs hrun).pc
  have ht := (LaidOut.append hlaid).1
  generalize hpc : m.pc = pc at hplaced hway
  cases pc with
  | test l' ifval =>
    cases ifval with
    | true => cases hway
    | false =>
      obtain ⟨rfl, rfl⟩ := Prod.mk.inj (Option.some.inj hway)
      rw [leaves_leave (by decide) (by rw [step, hpc]) hplaced ht]
      simp
  | verdict l' ifval =>
    cases ifval with
    | true =>
      simp only [wayOf] at hway
      split at hway
      · cases hway
      · next htran =>
        obtain ⟨rfl, rfl⟩ := Prod.mk.inj (Option.some.inj hway)
        refine iff_of_true ?_ (by simp)
        exact leaves_accept hpc (by simpa using htran) hplaced.2 hlaid
    | false =>
      obtain ⟨rfl, rfl⟩ := Prod.mk.inj (Option.some.inj hway)
      rw [leaves_leave (by decide) (by rw [step, hpc]; rfl) hplaced.2 ht]
      have hpast : behindAction l'.type ≠ 0 := by
        rw [behindAction, if_pos (hplaced.1 rfl)]
        omega
      simp [hpast]
  | loop _ => cases hway
  | act _ => cases hway
  | skip _ _ => cases hway
  | ret _ => cases hway
  | crash => cases hway

/-- `A` with an action routine, and `TPA$_LAMBDA`; both lead to `TPA$_EXIT`. -/
def letterA : Transition := ⟨.code 65, some (-1), some 0, none, none⟩

def otherwise : Transition := ⟨.code 502, some (-1), none, none, none⟩

/-- `TPA$_DECIMAL`, to `TPA$_EXIT`. -/
def decimal : Transition := ⟨.code 499, some (-1), none, none, none⟩

/-- A parser whose state table is the one state `ts`, at address 0. -/
def parserOf (ts : List Transition) (action : Nat → Tpa → World → BitVec 32 × World) : Parser :=
  ⟨fun p => (stateBytes ts).getD p 0, 0, action⟩

/-- An argument block for the `n` characters at `p`. -/
def blockAt (p n : Nat) : Tpa := ⟨8, false, false, false, false, 0, BitVec.ofNat 32 n, p, 0, 0, 0, 0, 0⟩

/-- The text is at address 100. -/
def worldOf (s : List Byte) : World := ⟨fun p => s.getD (p - 100) 0, 0, 0⟩

/-- A parser whose action routine rejects. -/
def rejecting : Parser := parserOf [letterA, otherwise] fun _ _ w => (0, w)

theorem table_layout_mismatch :
    (∃ m', Leaves rejecting (runFor rejecting 1 (libTparse 0 (blockAt 100 1) (worldOf [0x42]))) m' ∧
      m'.stack = [] ∧ LeftTo .skipped 0 letterA [otherwise] m'.pc) ↔
      ¬ (Way.skipped = .rejected ∧ [otherwise] ≠ []) :=
  table_layout rejecting 0 (blockAt 100 1) (worldOf [0x42]) _ (runs_runFor _ _ _)
    ⟨0, 0x9041, 2, 100⟩ .skipped (by decide +kernel) letterA [otherwise] (by
      show bytesAt _ 0 _ = _
      decide +kernel)

/-- The action routine of `A` rejects the input `A`: the next entry is at 8, the state pointer
comes to 12. -/
theorem rejected_goes_astray :
    ¬ ∃ m', Leaves rejecting (runFor rejecting 3 (libTparse 0 (blockAt 100 1) (worldOf [0x41]))) m' ∧
      m'.stack = [] ∧ LeftTo .rejected 0 letterA [otherwise] m'.pc := by
  rintro ⟨m', hleaves, -, hleft⟩
  have hpc : (runFor rejecting 4 (libTparse 0 (blockAt 100 1) (worldOf [0x41]))).pc = .loop 12 := by
    decide +kernel
  have hstep : step rejecting (runFor rejecting 3 (libTparse 0 (blockAt 100 1) (worldOf [0x41]))) =
      some (runFor rejecting 4 (libTparse 0 (blockAt 100 1) (worldOf [0x41]))) := rfl
  obtain rfl := leaves_loop_unique hstep hpc hleaves
  have hstart : (runFor rejecting 4 (libTparse 0 (blockAt 100 1) (worldOf [0x41]))).pc = .loop 8 :=
    hleft
  rw [hpc] at hstart
  exact absurd hstart (by decide)

end FreeVMS.Rtl.Tparse
