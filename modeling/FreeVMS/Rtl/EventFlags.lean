import Mathlib.Data.List.Basic
import Mathlib.Logic.Function.Basic

/-!
# Event flags

`libgetef.c`: `lib$get_ef`, `lib$free_ef` and `lib$reserve_ef` over the mask `efn_flags`, one bit for
each of the 64 local event flags, 1 for a flag that is free.  Flag `f` is bit `63 - f`.

Any number of threads and ASTs call the three routines.  A read of the mask and each of the interlocked
bit operations is one step; between two steps of a caller the others may take any number of theirs.
`lib$get_ef` reads the mask and clears the bit it found in two steps, and starts again if somebody
else has cleared it in between.  Each return is logged with the mask at its last step.
-/

namespace FreeVMS.Rtl.EventFlags

/-! ### The routines -/

/-- `SS$_NORMAL` -/
def ssNormal : Nat := 1

/-- `LIB$_INSEF` -/
def libInsef : Nat := 0x00158294

/-- `LIB$_EF_ALRFRE` -/
def libEfAlrfre : Nat := 0x0015829C

/-- `LIB$_EF_ALRRES` -/
def libEfAlrres : Nat := 0x001582A4

/-- `LIB$_EF_RESSYS` -/
def libEfRessys : Nat := 0x001582AC

/-- The first value of `efn_flags`. -/
def initialFlags : BitVec 64 := 0x00000000ffffffff#64

/-- The position of the first bit that is set, from 1 on, or 0. -/
def ffsll (bits : BitVec 64) : Nat :=
  match (List.range 64).find? fun i => bits.getLsbD i with
  | some i => i + 1
  | none => 0

/-- The old bit and the new mask. -/
def testAndSetBit (pos : Nat) (bits : BitVec 64) : Bool × BitVec 64 :=
  (bits.getLsbD pos, bits ||| BitVec.twoPow 64 pos)

def testAndClearBit (pos : Nat) (bits : BitVec 64) : Bool × BitVec 64 :=
  (bits.getLsbD pos, bits &&& ~~~ BitVec.twoPow 64 pos)

/-- The test of `lib$free_ef` and `lib$reserve_ef`, for `int ef`. -/
def InRange (ef : Int) : Prop := (1 ≤ ef ∧ ef ≤ 23) ∨ (32 ≤ ef ∧ ef ≤ 63)

instance (ef : Int) : Decidable (InRange ef) := inferInstanceAs (Decidable (_ ∨ _))

inductive Call where
  | get
  | free (efn : BitVec 32)
  | reserve (efn : BitVec 32)

/-- Where a caller is. -/
inductive Pc where
  | idle
  /-- `lib$get_ef` before `ffsll(efn_flags)` -/
  | reading
  /-- `lib$get_ef` before `test_and_clear_bit`, with `bit` -/
  | clearing (bit : Nat)
  /-- `lib$free_ef` before `test_and_set_bit`, with `*efn` -/
  | setting (efn : BitVec 32)
  /-- `lib$reserve_ef` before `test_and_clear_bit`, with `*efn` -/
  | reserving (efn : BitVec 32)
deriving DecidableEq

/-- A call that returned: its status and the flag. -/
inductive Return where
  | get (status : Nat) (efn : BitVec 32)
  | free (efn : BitVec 32) (status : Nat)
  | reserve (efn : BitVec 32) (status : Nat)

/-- A return, and `efn_flags` before the last step of the call. -/
structure Entry where
  mask : BitVec 64
  ret : Return

/-- The mask, and for each caller where it is and the cell that its `lib$get_ef` writes to; the log
    has the last return first. -/
structure State (ι : Type) where
  flags : BitVec 64
  pc : ι → Pc
  efn : ι → BitVec 32
  log : List Entry

/-- A caller starts a call, or takes its next step. -/
inductive Action (ι : Type) where
  | call (i : ι) (c : Call)
  | step (i : ι)

section Code

variable {ι : Type} [DecidableEq ι]

def State.goto (s : State ι) (i : ι) (pc : Pc) : State ι :=
  { s with pc := Function.update s.pc i pc }

/-- The call returns. -/
def State.return (s : State ι) (i : ι) (mask : BitVec 64) (r : Return) : State ι :=
  { s with pc := Function.update s.pc i .idle, log := ⟨mask, r⟩ :: s.log }

def getEf (i : ι) (s : State ι) : State ι :=
  { s with efn := Function.update s.efn i (-1) }.goto i .reading

def freeEf (i : ι) (efn : BitVec 32) (s : State ι) : State ι :=
  if InRange efn.toInt then s.goto i (.setting efn)
  else s.return i s.flags (.free efn libEfRessys)

def reserveEf (i : ι) (efn : BitVec 32) (s : State ι) : State ι :=
  if InRange efn.toInt then s.goto i (.reserving efn)
  else s.return i s.flags (.reserve efn libEfRessys)

/-- `bit = ffsll(efn_flags); if (bit == 0) return LIB$_INSEF;` -/
def readFlags (i : ι) (s : State ι) : State ι :=
  if ffsll s.flags = 0 then s.return i s.flags (.get libInsef (s.efn i))
  else s.goto i (.clearing (ffsll s.flags))

/-- The rest of the loop, and what comes after it. -/
def clearFlag (i : ι) (bit : Nat) (s : State ι) : State ι :=
  let (flag, flags) := testAndClearBit (bit - 1) s.flags
  if flag then
    let efn := BitVec.ofNat 32 (64 - bit)
    { s with flags := flags, efn := Function.update s.efn i efn }.return i s.flags
      (.get ssNormal efn)
  else { s with flags := flags }.goto i .reading

def setFlag (i : ι) (efn : BitVec 32) (s : State ι) : State ι :=
  let (flag, flags) := testAndSetBit (63 - efn.toInt).toNat s.flags
  { s with flags := flags }.return i s.flags
    (.free efn (if flag then libEfAlrfre else ssNormal))

def reserveFlag (i : ι) (efn : BitVec 32) (s : State ι) : State ι :=
  let (flag, flags) := testAndClearBit (63 - efn.toInt).toNat s.flags
  { s with flags := flags }.return i s.flags
    (.reserve efn (if flag then ssNormal else libEfAlrres))

/-- A call, up to its first step. -/
def start (i : ι) (s : State ι) : Call → State ι
  | .get => getEf i s
  | .free efn => freeEf i efn s
  | .reserve efn => reserveEf i efn s

/-- What an action does; a caller that is in a call does not start another one. -/
def act (s : State ι) : Action ι → State ι
  | .call i c => if s.pc i = .idle then start i s c else s
  | .step i =>
      match s.pc i with
      | .idle => s
      | .reading => readFlags i s
      | .clearing bit => clearFlag i bit s
      | .setting efn => setFlag i efn s
      | .reserving efn => reserveFlag i efn s

/-- Nobody is in a call. -/
def State.init (efn : ι → BitVec 32) : State ι :=
  { flags := initialFlags, pc := fun _ => .idle, efn := efn, log := [] }

def runActs (acts : List (Action ι)) (s : State ι) : State ι := acts.foldl act s

end Code

/-! ### What the returns may say -/

/-- The flag is free in the mask. -/
def IsFree (mask : BitVec 64) (f : Nat) : Prop := mask.getLsbD (63 - f) = true

instance (mask : BitVec 64) (f : Nat) : Decidable (IsFree mask f) := inferInstanceAs (Decidable (_ = _))

/-- The flags that are not reserved to the system. -/
def Allowed (f : Nat) : Prop := (1 ≤ f ∧ f ≤ 23) ∨ (32 ≤ f ∧ f ≤ 63)

instance (f : Nat) : Decidable (Allowed f) := inferInstanceAs (Decidable (_ ∨ _))

/-- The flag that a return grants to its caller. -/
def Return.grants : Return → Option Nat
  | .get status efn => if status = ssNormal then some efn.toNat else none
  | .free _ _ => none
  | .reserve efn status => if status = ssNormal then some efn.toNat else none

/-- The flag that a return frees. -/
def Return.frees : Return → Option Nat
  | .get _ _ => none
  | .free efn status => if status = ssNormal then some efn.toNat else none
  | .reserve _ _ => none

/-- The flag was granted and not freed since then. -/
def Held : List Entry → Nat → Prop
  | [], _ => False
  | e :: older, f => e.ret.grants = some f ∨ (e.ret.frees ≠ some f ∧ Held older f)

/-- The flag is free by the log: it was freed and not granted since then, or is free from the start. -/
def FreeAfter : List Entry → Nat → Prop
  | [], f => 32 ≤ f ∧ f ≤ 63
  | e :: older, f => e.ret.frees = some f ∨ (e.ret.grants ≠ some f ∧ FreeAfter older f)

/-- The status of a return is right for the mask at its last step. -/
def StatusOk (mask : BitVec 64) : Return → Prop
  | .get status efn =>
      (status = ssNormal ∧ efn.toNat < 64 ∧ IsFree mask efn.toNat) ∨
        (status = libInsef ∧ efn = -1 ∧ ∀ f < 64, ¬ IsFree mask f)
  | .free efn status =>
      status = if Allowed efn.toNat then if IsFree mask efn.toNat then libEfAlrfre else ssNormal
        else libEfRessys
  | .reserve efn status =>
      status = if Allowed efn.toNat then if IsFree mask efn.toNat then ssNormal else libEfAlrres
        else libEfRessys

/-- A return, given the returns before its last step. -/
structure EntryOk (older : List Entry) (e : Entry) : Prop where
  /-- the mask says of each flag what the returns so far have made of it -/
  mask : ∀ f < 64, IsFree e.mask f ↔ FreeAfter older f
  status : StatusOk e.mask e.ret
  grants : ∀ f, e.ret.grants = some f →
    Allowed f ∧ ¬ Held older f ∧ (f ≤ 23 → ∃ e' ∈ older, e'.ret.frees = some f)
  frees : ∀ f, e.ret.frees = some f → Allowed f

def LogOk : List Entry → Prop
  | [] => True
  | e :: older => EntryOk older e ∧ LogOk older

theorem LogOk.of_suffix {log : List Entry} (h : LogOk log) {e : Entry} {older : List Entry}
    (hs : e :: older <:+ log) : EntryOk older e := by
  induction log with
  | nil => exact absurd (List.suffix_nil.mp hs) (List.cons_ne_nil _ _)
  | cons e' log ih =>
    rcases List.suffix_cons_iff.mp hs with heq | hs
    · obtain ⟨rfl, rfl⟩ := List.cons.inj heq
      exact h.1
    · exact ih h.2 hs

theorem frees_free {efn : BitVec 32} {status f : Nat} :
    (Return.free efn status).frees = some f ↔ status = ssNormal ∧ efn.toNat = f := by
  simp [Return.frees]

theorem grants_reserve {efn : BitVec 32} {status f : Nat} :
    (Return.reserve efn status).grants = some f ↔ status = ssNormal ∧ efn.toNat = f := by
  simp [Return.grants]

theorem grants_get (efn : BitVec 32) : (Return.get ssNormal efn).grants = some efn.toNat := by
  simp [Return.grants]

theorem grants_of_frees {r : Return} {f : Nat} (h : r.frees = some f) : r.grants = none := by
  cases r with
  | get status efn => exact absurd h (by simp [Return.frees])
  | free efn status => rfl
  | reserve efn status => exact absurd h (by simp [Return.frees])

theorem FreeAfter.not_held {log : List Entry} {f : Nat} (h : FreeAfter log f) : ¬ Held log f := by
  induction log with
  | nil => exact id
  | cons e older ih =>
    rintro (hg | ⟨hf, hheld⟩)
    · rcases h with h | h
      · exact absurd (grants_of_frees h ▸ hg) (by simp)
      · exact h.1 hg
    · rcases h with h | h
      · exact hf h
      · exact ih h.2 hheld

/-- A flag below 24 that is free was freed. -/
theorem FreeAfter.freed {log : List Entry} {f : Nat} (h : FreeAfter log f) (hf : f ≤ 23) :
    ∃ e ∈ log, e.ret.frees = some f := by
  induction log with
  | nil => exact absurd h.1 (by omega)
  | cons e older ih =>
    rcases h with h | h
    · exact ⟨e, List.mem_cons_self, h⟩
    · obtain ⟨e', he', h'⟩ := ih h.2
      exact ⟨e', List.mem_cons_of_mem _ he', h'⟩

theorem FreeAfter.allowed {log : List Entry} {f : Nat} (hlog : LogOk log) (h : FreeAfter log f) :
    Allowed f := by
  induction log with
  | nil => exact .inr h
  | cons e older ih =>
    rcases h with h | h
    · exact hlog.1.frees f h
    · exact ih hlog.2 h.2

theorem Allowed.lt {f : Nat} (h : Allowed f) : f < 64 := by
  rw [Allowed] at h
  omega

theorem StatusOk.grants {mask : BitVec 64} {r : Return} {f : Nat} (h : StatusOk mask r)
    (hf : r.grants = some f) : f < 64 ∧ IsFree mask f := by
  cases r with
  | get status efn =>
    rcases h with ⟨rfl, hlt, hfree⟩ | ⟨hst, -, -⟩
    · obtain rfl := Option.some.inj ((grants_get efn).symm.trans hf)
      exact ⟨hlt, hfree⟩
    · rw [Return.grants, hst, if_neg (by decide)] at hf
      exact nomatch hf
  | free efn status => exact nomatch hf
  | reserve efn status =>
    obtain ⟨hst, rfl⟩ := grants_reserve.mp hf
    rw [StatusOk, hst] at h
    split_ifs at h with hal hfree
    · exact ⟨hal.lt, hfree⟩
    · exact absurd h (by decide)
    · exact absurd h (by decide)

theorem StatusOk.frees {mask : BitVec 64} {r : Return} {f : Nat} (h : StatusOk mask r)
    (hf : r.frees = some f) : Allowed f := by
  cases r with
  | get status efn => exact nomatch hf
  | free efn status =>
    obtain ⟨hst, rfl⟩ := frees_free.mp hf
    rw [StatusOk, hst] at h
    split_ifs at h with hal hfree
    · exact hal
    · exact hal
    · exact absurd h (by decide)
  | reserve efn status => exact nomatch hf

/-- A return is right when its status is and it grants nothing but what is free. -/
theorem EntryOk.of_status {older : List Entry} {e : Entry} (hlog : LogOk older)
    (hmask : ∀ f < 64, IsFree e.mask f ↔ FreeAfter older f) (hstatus : StatusOk e.mask e.ret) :
    EntryOk older e := by
  refine ⟨hmask, hstatus, fun f hf => ?_, fun f hf => hstatus.frees hf⟩
  obtain ⟨hlt, hfree⟩ := hstatus.grants hf
  have hafter := (hmask f hlt).mp hfree
  exact ⟨hafter.allowed hlog, hafter.not_held, hafter.freed⟩

/-! ### Bits -/

theorem getLsbD_testAndSetBit {pos : Nat} (bits : BitVec 64) (j : Nat) (hpos : pos < 64) :
    (testAndSetBit pos bits).2.getLsbD j = (bits.getLsbD j || decide (j = pos)) := by
  rw [testAndSetBit, BitVec.getLsbD_or, BitVec.getLsbD_twoPow]
  simp [hpos, eq_comm]

theorem getLsbD_testAndClearBit {pos : Nat} (bits : BitVec 64) (j : Nat) :
    (testAndClearBit pos bits).2.getLsbD j = (bits.getLsbD j && !decide (j = pos)) := by
  rw [testAndClearBit, BitVec.getLsbD_and, BitVec.getLsbD_not, BitVec.getLsbD_twoPow]
  by_cases hj : j < 64
  · by_cases hjp : j = pos
    · simp [hj, ← hjp]
    · simp [hj, hjp, Ne.symm hjp]
  · simp [BitVec.getLsbD_of_ge bits j (by omega)]

theorem ffsll_eq_zero {bits : BitVec 64} : ffsll bits = 0 ↔ ∀ i < 64, bits.getLsbD i = false := by
  rw [ffsll]
  cases hfind : (List.range 64).find? fun i => bits.getLsbD i with
  | none =>
    have hnone := List.find?_eq_none.mp hfind
    simpa using hnone
  | some i =>
    have hset : bits.getLsbD i = true := List.find?_some hfind
    have hlt : i < 64 := List.mem_range.mp (List.mem_of_find?_eq_some hfind)
    refine ⟨fun h => absurd h (Nat.succ_ne_zero i), fun h => ?_⟩
    exact absurd (h i hlt) (by simp [hset])

theorem ffsll_le (bits : BitVec 64) : ffsll bits ≤ 64 := by
  rw [ffsll]
  cases hfind : (List.range 64).find? fun i => bits.getLsbD i with
  | none => exact Nat.zero_le _
  | some i => exact List.mem_range.mp (List.mem_of_find?_eq_some hfind)

theorem inRange_iff {efn : BitVec 32} : InRange efn.toInt ↔ Allowed efn.toNat := by
  rw [InRange, Allowed, BitVec.toInt_eq_toNat_cond]
  have := efn.isLt
  split_ifs <;> omega

/-! ### Every interleaving -/

section Runs

variable {ι : Type} [DecidableEq ι]

/-- What is known of a caller: its place and its cell. -/
def PcOk : Pc → BitVec 32 → Prop
  | .idle, _ => True
  | .reading, cell => cell = -1
  | .clearing bit, cell => (1 ≤ bit ∧ bit ≤ 64) ∧ cell = -1
  | .setting efn, _ => Allowed efn.toNat
  | .reserving efn, _ => Allowed efn.toNat

structure Inv (s : State ι) : Prop where
  flags : ∀ f < 64, IsFree s.flags f ↔ FreeAfter s.log f
  log : LogOk s.log
  callers : ∀ i, PcOk (s.pc i) (s.efn i)

omit [DecidableEq ι] in
theorem Inv.init (efn : ι → BitVec 32) : Inv (State.init efn) := by
  have hbits : ∀ f < 64, IsFree initialFlags f ↔ 32 ≤ f ∧ f ≤ 63 := by decide
  exact ⟨hbits, trivial, fun _ => trivial⟩

/-- A caller moves on without a return. -/
theorem Inv.goto {s : State ι} (h : Inv s) (i : ι) {pc : Pc} {efn : ι → BitVec 32}
    (hefn : ∀ j, j ≠ i → efn j = s.efn j) (hpc : PcOk pc (efn i)) :
    Inv (({ s with efn := efn } : State ι).goto i pc) := by
  refine ⟨h.flags, h.log, fun j => ?_⟩
  by_cases hji : j = i
  · subst hji
    simpa [State.goto] using hpc
  · simpa [State.goto, hji, hefn j hji] using h.callers j

/-- A return, with what it does to the mask. -/
theorem Inv.return {s : State ι} (h : Inv s) (i : ι) {flags : BitVec 64} {r : Return}
    {efn : ι → BitVec 32} (hefn : ∀ j, j ≠ i → efn j = s.efn j) (hstatus : StatusOk s.flags r)
    (hflags : ∀ f < 64, IsFree flags f ↔ r.frees = some f ∨ (r.grants ≠ some f ∧ IsFree s.flags f)) :
    Inv (({ s with flags := flags, efn := efn } : State ι).return i s.flags r) := by
  refine ⟨fun f hf => ?_, ⟨.of_status h.log h.flags hstatus, h.log⟩, fun j => ?_⟩
  · exact (hflags f hf).trans (or_congr_right (and_congr_right fun _ => h.flags f hf))
  · by_cases hji : j = i
    · subst hji
      simp [State.return, PcOk]
    · simpa [State.return, hji, hefn j hji] using h.callers j

/-- A call for a flag that is reserved to the system returns at once. -/
theorem Inv.ressys {s : State ι} (h : Inv s) (i : ι) {r : Return} (hstatus : StatusOk s.flags r)
    (hgrants : r.grants = none) (hfrees : r.frees = none) : Inv (s.return i s.flags r) := by
  refine h.return i (fun _ _ => rfl) hstatus fun f _ => ?_
  simp [hgrants, hfrees]

theorem Inv.readFlags {s : State ι} (h : Inv s) {i : ι} (hpc : s.pc i = .reading) :
    Inv (readFlags i s) := by
  have hcell : s.efn i = -1 := by simpa [hpc, PcOk] using h.callers i
  rw [EventFlags.readFlags]
  split_ifs with hbit
  · refine h.ressys i (.inr ⟨rfl, hcell, fun f _ => ?_⟩) rfl rfl
    rw [IsFree, ffsll_eq_zero.mp hbit (63 - f) (by omega)]
    exact Bool.false_ne_true
  · exact h.goto i (fun _ _ => rfl) ⟨⟨Nat.pos_of_ne_zero hbit, ffsll_le _⟩, hcell⟩

/-- Clearing the bit of a flag takes exactly that flag. -/
theorem isFree_testAndClearBit {mask : BitVec 64} {f g : Nat} (hf : f < 64) (hg : g < 64) :
    IsFree (testAndClearBit (63 - g) mask).2 f ↔ f ≠ g ∧ IsFree mask f := by
  rw [IsFree, getLsbD_testAndClearBit, IsFree, Bool.and_eq_true, Bool.not_eq_true', decide_eq_false_iff_not]
  have : 63 - f = 63 - g ↔ f = g := by omega
  tauto

theorem isFree_testAndSetBit {mask : BitVec 64} {f g : Nat} (hf : f < 64) (hg : g < 64) :
    IsFree (testAndSetBit (63 - g) mask).2 f ↔ f = g ∨ IsFree mask f := by
  rw [IsFree, getLsbD_testAndSetBit _ _ (by omega), IsFree, Bool.or_eq_true, decide_eq_true_iff]
  have : 63 - f = 63 - g ↔ f = g := by omega
  tauto

theorem Inv.clearFlag {s : State ι} (h : Inv s) {i : ι} {bit : Nat} (hpc : s.pc i = .clearing bit) :
    Inv (clearFlag i bit s) := by
  have hok : PcOk (.clearing bit) (s.efn i) := hpc ▸ h.callers i
  obtain ⟨⟨hlo, hhi⟩, hcell⟩ := hok
  have hpos : bit - 1 = 63 - (64 - bit) := by omega
  have hnat : (BitVec.ofNat 32 (64 - bit)).toNat = 64 - bit := by
    rw [BitVec.toNat_ofNat]
    exact Nat.mod_eq_of_lt (by omega)
  have hclear : ∀ f < 64, IsFree (testAndClearBit (63 - (64 - bit)) s.flags).2 f ↔
      f ≠ 64 - bit ∧ IsFree s.flags f := fun f hf => isFree_testAndClearBit hf (by omega)
  rw [EventFlags.clearFlag, hpos]
  change Inv (if (testAndClearBit (63 - (64 - bit)) s.flags).1 then _ else _)
  split_ifs with hflag
  · have hfree : IsFree s.flags (64 - bit) := hflag
    refine h.return i (fun j hji => Function.update_of_ne hji _ _) (.inl ⟨rfl, ?_, ?_⟩) fun f hf => ?_
    · rw [hnat]
      omega
    · rwa [hnat]
    · refine (hclear f hf).trans ?_
      rw [grants_get, hnat]
      simp [Return.frees, eq_comm]
  · have hnot : ¬ IsFree s.flags (64 - bit) := hflag
    -- the bit was clear, so the mask stays as it is
    have hsame : Inv { s with flags := (testAndClearBit (63 - (64 - bit)) s.flags).2 } := by
      refine ⟨fun f hf => (hclear f hf).trans ?_, h.log, h.callers⟩
      rw [← h.flags f hf]
      exact ⟨fun hf => hf.2, fun hf => ⟨fun heq => hnot (heq ▸ hf), hf⟩⟩
    exact hsame.goto i (fun _ _ => rfl) hcell

theorem toNat_sub_toInt {efn : BitVec 32} (h : Allowed efn.toNat) :
    (63 - efn.toInt).toNat = 63 - efn.toNat := by
  rw [Allowed] at h
  rw [BitVec.toInt_eq_toNat_cond]
  split_ifs <;> omega

theorem Inv.setFlag {s : State ι} (h : Inv s) {i : ι} {efn : BitVec 32}
    (hpc : s.pc i = .setting efn) : Inv (setFlag i efn s) := by
  have hal : Allowed efn.toNat := by simpa [hpc, PcOk] using h.callers i
  rw [EventFlags.setFlag, toNat_sub_toInt hal]
  refine h.return i (fun _ _ => rfl) ?_ fun f hf => ?_
  · rw [StatusOk, if_pos hal]
    rfl
  · refine (isFree_testAndSetBit hf hal.lt).trans ?_
    rw [frees_free]
    by_cases hold : s.flags.getLsbD (63 - efn.toNat) = true
    · rw [if_pos hold]
      refine ⟨fun h => .inr ⟨nofun, ?_⟩, fun h => h.elim (fun h => absurd h.1 (by decide)) fun h => .inr h.2⟩
      exact h.elim (fun heq => heq ▸ hold) id
    · rw [if_neg hold]
      exact ⟨fun h => h.elim (fun h => .inl ⟨rfl, h.symm⟩) fun h => .inr ⟨nofun, h⟩,
        fun h => h.imp (fun h => h.2.symm) fun h => h.2⟩

theorem Inv.reserveFlag {s : State ι} (h : Inv s) {i : ι} {efn : BitVec 32}
    (hpc : s.pc i = .reserving efn) : Inv (reserveFlag i efn s) := by
  have hal : Allowed efn.toNat := by simpa [hpc, PcOk] using h.callers i
  rw [EventFlags.reserveFlag, toNat_sub_toInt hal]
  refine h.return i (fun _ _ => rfl) ?_ fun f hf => ?_
  · rw [StatusOk, if_pos hal]
    rfl
  · refine (isFree_testAndClearBit hf hal.lt).trans ?_
    rw [ne_eq, ne_eq, grants_reserve]
    by_cases hold : s.flags.getLsbD (63 - efn.toNat) = true
    · rw [if_pos hold]
      exact ⟨fun h => .inr ⟨fun hg => h.1 hg.2.symm, h.2⟩,
        fun h => h.elim nofun fun h => ⟨fun heq => h.1 ⟨rfl, heq.symm⟩, h.2⟩⟩
    · rw [if_neg hold]
      exact ⟨fun h => .inr ⟨fun hg => absurd hg.1 (by decide), h.2⟩,
        fun h => h.elim nofun fun h => ⟨fun heq => hold (heq ▸ h.2), h.2⟩⟩

theorem Inv.freeEf {s : State ι} (h : Inv s) (i : ι) (efn : BitVec 32) : Inv (freeEf i efn s) := by
  rw [EventFlags.freeEf]
  split_ifs with hr
  · exact h.goto i (fun _ _ => rfl) (inRange_iff.mp hr)
  · refine h.ressys i ?_ rfl rfl
    rw [StatusOk, if_neg (inRange_iff.not.mp hr)]

theorem Inv.reserveEf {s : State ι} (h : Inv s) (i : ι) (efn : BitVec 32) :
    Inv (reserveEf i efn s) := by
  rw [EventFlags.reserveEf]
  split_ifs with hr
  · exact h.goto i (fun _ _ => rfl) (inRange_iff.mp hr)
  · refine h.ressys i ?_ rfl rfl
    rw [StatusOk, if_neg (inRange_iff.not.mp hr)]

theorem Inv.getEf {s : State ι} (h : Inv s) (i : ι) : Inv (getEf i s) :=
  h.goto i (fun _ hji => Function.update_of_ne hji _ _) (Function.update_self ..)

theorem Inv.act {s : State ι} (h : Inv s) (a : Action ι) : Inv (act s a) := by
  cases a with
  | call i c =>
    rw [EventFlags.act]
    split
    · cases c with
      | get => exact h.getEf i
      | free efn => exact h.freeEf i efn
      | reserve efn => exact h.reserveEf i efn
    · exact h
  | step i =>
    rw [EventFlags.act]
    split
    case h_1 => exact h
    case h_2 hpc => exact h.readFlags hpc
    case h_3 hpc => exact h.clearFlag hpc
    case h_4 hpc => exact h.setFlag hpc
    case h_5 hpc => exact h.reserveFlag hpc

theorem Inv.runActs {s : State ι} (h : Inv s) (acts : List (Action ι)) : Inv (runActs acts s) := by
  induction acts generalizing s with
  | nil => exact h
  | cons a acts ih => exact ih (h.act a)

/-- **Event flags.**  In every interleaving of any number of callers, every return has the status that the
    mask at its last step asks for; the mask says of each flag what the returns before made of it; a
    flag is granted only while it is not held, flags 1 to 23 only after they were freed, and flags 0
    and 24 to 31 are neither granted nor freed. -/
theorem event_flags_ok (efn : ι → BitVec 32) (acts : List (Action ι)) (e : Entry)
    (older : List Entry) (hs : e :: older <:+ (runActs acts (State.init efn)).log) :
    EntryOk older e :=
  ((Inv.init efn).runActs acts).log.of_suffix hs

end Runs

/-- Two callers find the same flag, and the one that comes second gets the next one. -/
def race : List (Action Bool) :=
  [.call true .get, .step true, .call false .get, .step false, .step false, .step true, .step true,
    .step true]

theorem event_flags_ok_race :
    EntryOk [⟨0xffffffff#64, .get ssNormal 63⟩] ⟨0xfffffffe#64, .get ssNormal 62⟩ :=
  event_flags_ok (fun _ => 0) race _ _ ⟨[], rfl⟩

end FreeVMS.Rtl.EventFlags
