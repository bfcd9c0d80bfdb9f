import FreeVMS.Rtl.Bytes
import Mathlib.Data.List.TakeWhile

/-!
# The parameters of the command line

`sys$parsing` takes the first place at which the name of a parameter is in the line, whatever stands
behind it, and goes on to the next `=`.  `i` is never increased in the first two loops, so that their
`PANIC(i >= length)` is `PANIC(0 >= length)`: a line without `=` is read past its end.  That the word
behind the `=` is the value of the parameter is then a condition on the line.
-/

namespace FreeVMS.Boot

open Rtl (Byte)

/-- The characters in front of the NUL. -/
structure CString where
  chars : List Byte
  noNul : 0 ∉ chars

inductive ParseFault where
  | panic
  /-- a read behind the NUL of the line -/
  | beyond
  /-- an access outside `argument[0..length-1]` -/
  | outside
deriving DecidableEq, Repr

def blank : Byte := 32

def equals : Byte := 61

/-- `strstr`: how far behind the start of the line. -/
def strstr : List Byte → List Byte → Option Nat
  | [], command => if command.isPrefixOf [] then some 0 else none
  | c :: s, command =>
      if command.isPrefixOf (c :: s) then some 0 else (strstr s command).map (· + 1)

/-- `while((*ptr) != '=') { ptr++; PANIC(i >= length); }` with `i` 0.  A pointer is what is left of the
    line. -/
def seekEquals (length : Int) : List Byte → Except ParseFault (List Byte)
  | [] => if 0 ≥ length then .error .panic else .error .beyond
  | c :: s =>
      if c = equals then .ok (c :: s)
      else if 0 ≥ length then .error .panic
      else seekEquals length s

/-- `while((*ptr) == ' ') { ptr++; PANIC(i >= length); }` -/
def skipSpaces (length : Int) : List Byte → Except ParseFault (List Byte)
  | [] => .ok []
  | c :: s =>
      if c = blank then
        if 0 ≥ length then .error .panic else skipSpaces length s
      else .ok (c :: s)

/-- The loop that fills in `argument`. -/
def copyValue (length : Int) : List Byte → Nat → List Byte → Except ParseFault (List Byte)
  | [], _, argument => .ok argument
  | c :: s, i, argument =>
      if c = blank then .ok argument
      else if i < argument.length then
        if (i + 1 : Int) ≥ length then .error .panic
        else copyValue length s (i + 1) (argument.set i c)
      else .error .outside

/-- `'a'` to `'z'` become capitals. -/
def upcase (c : Byte) : Byte := if 97 ≤ c.toNat ∧ c.toNat ≤ 122 then c - 32 else c

/-- The last loop, up to the NUL in `argument`. -/
def upcaseLoop : List Byte → Except ParseFault (List Byte)
  | [] => .error .outside
  | c :: s => if c = 0 then .ok (c :: s) else (upcaseLoop s).map (upcase c :: ·)

/-- `sys$parsing`: `argument` as it is left. -/
def sysParsing (line command : CString) (length : Int) : Except ParseFault (List Byte) := do
  let argument := List.replicate length.toNat 0
  match strstr line.chars command.chars with
  | none => .error .panic
  | some o =>
      if o ≠ 0 ∧ line.chars[o - 1]? ≠ some blank then .error .panic
      else do
        let ptr ← seekEquals length (line.chars.drop o)
        let ptr ← skipSpaces length ptr.tail
        let argument ← copyValue length ptr 0 argument
        upcaseLoop argument

/-! ### What is to be stored -/

/-- The start of the line, or behind a space. -/
def AtWord (s : List Byte) (p : Nat) : Prop := p = 0 ∨ s[p - 1]? = some blank

/-- `command` with `=`, spaces and a value stands at `p`. -/
structure ParameterAt (line command : CString) (length : Int) (p : Nat) (value : List Byte) :
    Prop where
  start : AtWord line.chars p
  text : ∃ k tail, line.chars.drop p =
      command.chars ++ equals :: (List.replicate k blank ++ (value ++ tail)) ∧
        (tail = [] ∨ tail.head? = some blank)
  ne_nil : value ≠ []
  blank_notMem : blank ∉ value
  short : (value.length : Int) < length

/-- The first such place. -/
def FirstParameter (line command : CString) (length : Int) (p : Nat) (value : List Byte) : Prop :=
  ParameterAt line command length p value ∧
    ∀ q, q < p → ∀ v, ¬ ParameterAt line command length q v

/-- A value in capitals with zeros behind it. -/
def stored (length : Int) (value : List Byte) : List Byte :=
  value.map upcase ++ List.replicate (length.toNat - value.length) 0

/-- The first parameter is stored, and only a panic stops the scan. -/
structure ParseRight (line command : CString) (length : Int) : Prop where
  stores : ∀ p value, FirstParameter line command length p value →
    sysParsing line command length = .ok (stored length value)
  safe : ∀ fault, sysParsing line command length = .error fault → fault = .panic

/-- Neither of the first two panics. -/
def ScansFrom (line command : CString) (o : Nat) : Prop :=
  strstr line.chars command.chars = some o ∧ AtWord line.chars o

/-- The word behind the first `=`. -/
def wordBehind (s : List Byte) : List Byte :=
  ((s.dropWhile (· != equals)).tail.dropWhile (· == blank)).takeWhile (· != blank)

/-- The condition: behind the first place of `command` comes `=`, and the word behind that `=` reads
    as the value of the first parameter; with no room at all, no `=` stands at that place, or a space
    behind it. -/
structure ParseCondition (line command : CString) (length : Int) : Prop where
  same : ∀ p value, FirstParameter line command length p value →
    ∃ o, ScansFrom line command o ∧
      (wordBehind (line.chars.drop o)).map upcase = value.map upcase
  ended : 0 < length → ∀ o, ScansFrom line command o → equals ∈ line.chars.drop o
  room : length ≤ 0 → ∀ o, ScansFrom line command o →
    (line.chars.drop o).head? = some equals → (line.chars.drop o).tail.head? = some blank

/-! ### The loops -/

section

variable {length : Int} {s w v : List Byte} {line command : CString} {o p : Nat}

theorem seekEquals_of_mem (hlength : 0 < length) (h : equals ∈ s) :
    seekEquals length s = .ok (s.dropWhile (· != equals)) := by
  induction s with
  | nil => cases h
  | cons c s ih =>
    by_cases hc : c = equals
    · simp [seekEquals, hc]
    · have hs : equals ∈ s := (List.mem_cons.mp h).resolve_left fun hce => hc hce.symm
      rw [seekEquals, if_neg hc, if_neg (by omega), ih hs]
      simp [hc]

theorem seekEquals_of_notMem (hlength : 0 < length) (h : equals ∉ s) :
    seekEquals length s = .error .beyond := by
  induction s with
  | nil => rw [seekEquals, if_neg (by omega)]
  | cons c s ih =>
    obtain ⟨hc, hs⟩ := not_or.mp (mt List.mem_cons.mpr h)
    rw [seekEquals, if_neg fun hce => hc hce.symm, if_neg (by omega), ih hs]

theorem skipSpaces_eq (hlength : 0 < length) (s : List Byte) :
    skipSpaces length s = .ok (s.dropWhile (· == blank)) := by
  induction s with
  | nil => rfl
  | cons c s ih =>
    by_cases hc : c = blank
    · rw [skipSpaces, if_pos hc, if_neg (by omega), ih]
      simp [hc]
    · rw [skipSpaces, if_neg hc]
      simp [hc]

/-- What is written comes behind what is there already. -/
theorem copyValue_eq (s : List Byte) (done : List Byte) (r : Nat)
    (hr : (done.length + r : Int) = length) (hpos : 0 < r) :
    copyValue length s done.length (done ++ List.replicate r 0) =
      if ((s.takeWhile (· != blank)).length : Int) < r then
        .ok (done ++ s.takeWhile (· != blank) ++
          List.replicate (r - (s.takeWhile (· != blank)).length) 0)
      else .error .panic := by
  induction s generalizing done r with
  | nil => simp [copyValue, hpos]
  | cons c s ih =>
    by_cases hc : c = blank
    · simp [copyValue, hc, hpos]
    · have hword : (c :: s).takeWhile (· != blank) = c :: s.takeWhile (· != blank) := by simp [hc]
      rw [copyValue, if_neg hc, if_pos (by simp; omega), hword, List.length_cons]
      obtain ⟨r, rfl⟩ := Nat.exists_eq_succ_of_ne_zero (Nat.ne_of_gt hpos)
      have hset : (done ++ List.replicate (r + 1) 0).set done.length c =
          (done ++ [c]) ++ List.replicate r 0 := by
        simp [List.replicate_succ]
      by_cases hfull : r = 0
      · rw [if_pos (by omega), if_neg (by omega)]
      · have hlen : done.length + 1 = (done ++ [c]).length := by simp
        rw [if_neg (by omega), hset, hlen, ih (done ++ [c]) r (by simp; omega) (by omega)]
        refine if_congr (by omega) ?_ rfl
        simp

theorem upcase_ne_zero {c : Byte} (h : c ≠ 0) : upcase c ≠ 0 := by
  rw [upcase]
  split
  case isTrue hletter =>
    intro hzero
    have hc : c = 32 := by rw [← BitVec.sub_add_cancel c 32, hzero]; rfl
    subst hc
    exact absurd hletter (by decide)
  case isFalse => exact h

theorem upcaseLoop_eq {r : Nat} (hr : 0 < r) (h : (0 : Byte) ∉ v) :
    upcaseLoop (v ++ List.replicate r 0) = .ok (v.map upcase ++ List.replicate r 0) := by
  induction v with
  | nil =>
    obtain ⟨r, rfl⟩ := Nat.exists_eq_succ_of_ne_zero (Nat.ne_of_gt hr)
    rfl
  | cons c v ih =>
    obtain ⟨hc, hv⟩ := not_or.mp (mt List.mem_cons.mpr h)
    rw [List.cons_append, upcaseLoop, if_neg (Ne.symm hc), ih hv]
    rfl

/-! ### The line -/

theorem wordBehind_noNul (h : (0 : Byte) ∉ s) : (0 : Byte) ∉ wordBehind s := by
  intro hmem
  apply h
  have hspaces := (List.dropWhile_suffix _).subset ((List.takeWhile_prefix _).subset hmem)
  exact (List.dropWhile_suffix _).subset (List.mem_of_mem_tail hspaces)

theorem ScansFrom.go (h : ScansFrom line command o) :
    ¬ (o ≠ 0 ∧ line.chars[o - 1]? ≠ some blank) := by
  rintro ⟨hne, hblank⟩
  exact h.2.elim hne hblank

/-- Everything that can happen when there is room. -/
theorem sysParsing_scans (hlength : 0 < length) (h : ScansFrom line command o) :
    sysParsing line command length =
      if equals ∈ line.chars.drop o then
        if ((wordBehind (line.chars.drop o)).length : Int) < length then
          .ok (stored length (wordBehind (line.chars.drop o)))
        else .error .panic
      else .error .beyond := by
  simp only [sysParsing, h.1, if_neg h.go]
  by_cases heq : equals ∈ line.chars.drop o
  · have hnul : (0 : Byte) ∉ wordBehind (line.chars.drop o) :=
      wordBehind_noNul fun hmem => line.noNul (List.mem_of_mem_drop hmem)
    have hcopy := @copyValue_eq length
      (((line.chars.drop o).dropWhile (· != equals)).tail.dropWhile (· == blank)) [] length.toNat
      (by simp; omega) (by omega)
    rw [List.length_nil, List.nil_append, List.nil_append, ← wordBehind] at hcopy
    simp only [seekEquals_of_mem hlength heq, skipSpaces_eq hlength, bind, Except.bind, hcopy,
      if_pos heq]
    by_cases hfit : ((wordBehind (line.chars.drop o)).length : Int) < length
    · rw [if_pos (by omega), if_pos hfit]
      exact upcaseLoop_eq (by omega) hnul
    · rw [if_neg (by omega), if_neg hfit]
  · rw [seekEquals_of_notMem hlength heq, if_neg heq]
    rfl

/-- Everything that can happen when there is no room. -/
theorem sysParsing_noRoom (hlength : length ≤ 0) (h : ScansFrom line command o) :
    sysParsing line command length =
      if (line.chars.drop o).head? = some equals ∧ (line.chars.drop o).tail.head? ≠ some blank then
        .error .outside
      else .error .panic := by
  have hzero : length.toNat = 0 := by omega
  simp only [sysParsing, h.1, if_neg h.go, hzero, List.replicate_zero]
  generalize line.chars.drop o = s
  cases s with
  | nil => simp [seekEquals, hlength, bind, Except.bind]
  | cons c s =>
    by_cases hc : c = equals
    · cases s with
      | nil => simp [seekEquals, skipSpaces, copyValue, upcaseLoop, hc, bind, Except.bind]
      | cons d s =>
        by_cases hd : d = blank
        · simp [seekEquals, skipSpaces, hc, hd, hlength, bind, Except.bind]
        · simp [seekEquals, skipSpaces, copyValue, hc, hd, bind, Except.bind]
    · simp [seekEquals, hc, hlength, bind, Except.bind]

/-- A panic in front of the scan. -/
theorem sysParsing_notFound (h : ∀ o, ¬ ScansFrom line command o) :
    sysParsing line command length = .error .panic := by
  rw [sysParsing]
  cases hfind : strstr line.chars command.chars with
  | none => rfl
  | some o =>
    have hgo : o ≠ 0 ∧ line.chars[o - 1]? ≠ some blank :=
      not_or.mp fun hword => h o ⟨hfind, hword⟩
    simp only [if_pos hgo]

/-- Zeros do not stand in a value, so that what is stored tells the value in capitals. -/
theorem stored_inj (hw : (0 : Byte) ∉ w) (hv : (0 : Byte) ∉ v)
    (h : stored length w = stored length v) : w.map upcase = v.map upcase := by
  have htake : ∀ x : List Byte, (0 : Byte) ∉ x →
      (stored length x).takeWhile (· != 0) = x.map upcase := by
    intro x hx
    rw [stored, List.takeWhile_append_of_pos, List.takeWhile_replicate]
    · simp
    · intro c hc
      obtain ⟨d, hd, rfl⟩ := List.mem_map.mp hc
      simpa using upcase_ne_zero fun hzero => hx (hzero ▸ hd)
  rw [← htake w hw, h, htake v hv]

theorem ParameterAt.noNul (h : ParameterAt line command length p v) : (0 : Byte) ∉ v := by
  obtain ⟨k, tail, htext, -⟩ := h.text
  intro hmem
  have hdrop : (0 : Byte) ∈ line.chars.drop p := by
    rw [htext]
    simp only [List.mem_append, List.mem_cons, hmem, true_or, or_true]
  exact line.noNul (List.mem_of_mem_drop hdrop)

theorem ParameterAt.length_pos (h : ParameterAt line command length p v) : 0 < length := by
  have := h.short
  omega

/-- The word behind the `=` of a parameter whose name has no `=` is its value. -/
theorem ParameterAt.wordBehind (h : ParameterAt line command length p v)
    (hname : equals ∉ command.chars) : wordBehind (line.chars.drop p) = v := by
  obtain ⟨k, tail, htext, htail⟩ := h.text
  obtain ⟨c, v, rfl⟩ := List.exists_cons_of_ne_nil h.ne_nil
  have hc : c ≠ blank := fun hce => h.blank_notMem (hce ▸ List.mem_cons_self)
  have hseek : (command.chars ++ equals :: (List.replicate k blank ++ (c :: v ++ tail))).dropWhile
      (· != equals) = equals :: (List.replicate k blank ++ (c :: v ++ tail)) := by
    rw [List.dropWhile_append_of_pos]
    · simp
    · intro d hd
      simpa using fun hde : d = equals => hname (hde ▸ hd)
  have hskip : (List.replicate k blank ++ (c :: v ++ tail)).dropWhile (· == blank) =
      c :: v ++ tail := by
    rw [List.dropWhile_append_of_pos]
    · simp [hc]
    · intro d hd
      simp [List.eq_of_mem_replicate hd]
  have hend : tail.takeWhile (· != blank) = [] := by
    rcases htail with rfl | hhead
    · rfl
    · obtain ⟨tail, rfl⟩ := List.head?_eq_some_iff.mp hhead
      simp
  rw [Boot.wordBehind, htext, hseek, List.tail_cons, hskip, List.takeWhile_append_of_pos, hend,
    List.append_nil]
  intro d hd
  simpa using fun hde : d = blank => h.blank_notMem (hde ▸ hd)

/-- A parameter at the first place of its name is stored. -/
theorem ParameterAt.stored (h : ParameterAt line command length p v)
    (hname : equals ∉ command.chars) (hfirst : strstr line.chars command.chars = some p) :
    sysParsing line command length = .ok (stored length v) := by
  obtain ⟨k, tail, htext, -⟩ := h.text
  have hmem : equals ∈ line.chars.drop p := by simp [htext]
  rw [sysParsing_scans h.length_pos ⟨hfirst, h.start⟩, if_pos hmem, h.wordBehind hname,
    if_pos h.short]

theorem stored_congr (h : w.map upcase = v.map upcase) : stored length w = stored length v := by
  have hlen : w.length = v.length := by simpa using congrArg List.length h
  rw [stored, stored, h, hlen]

theorem ParseRight.condition (h : ParseRight line command length) :
    ParseCondition line command length := by
  refine ⟨?_, ?_, ?_⟩
  · intro p value hp
    have hlength := hp.1.length_pos
    have hstore := h.stores p value hp
    by_cases hscan : ∃ o, ScansFrom line command o
    · obtain ⟨o, hscan⟩ := hscan
      refine ⟨o, hscan, ?_⟩
      rw [sysParsing_scans hlength hscan] at hstore
      split at hstore
      · split at hstore
        · have hnul : (0 : Byte) ∉ wordBehind (line.chars.drop o) :=
            wordBehind_noNul fun hmem => line.noNul (List.mem_of_mem_drop hmem)
          exact stored_inj hnul hp.1.noNul (Except.ok.inj hstore)
        · cases hstore
      · cases hstore
    · rw [sysParsing_notFound (not_exists.mp hscan)] at hstore
      cases hstore
  · intro hlength o hscan
    by_contra heq
    have hbeyond := sysParsing_scans hlength hscan
    rw [if_neg heq] at hbeyond
    cases h.safe _ hbeyond
  · intro hlength o hscan hhead
    by_contra hblank
    have houtside := sysParsing_noRoom hlength hscan
    rw [if_pos ⟨hhead, hblank⟩] at houtside
    cases h.safe _ houtside

theorem ParseCondition.right (h : ParseCondition line command length) :
    ParseRight line command length := by
  constructor
  · intro p value hp
    have hlength := hp.1.length_pos
    obtain ⟨o, hscan, hsame⟩ := h.same p value hp
    have hlen : (wordBehind (line.chars.drop o)).length = value.length := by
      simpa using congrArg List.length hsame
    have hshort := hp.1.short
    rw [sysParsing_scans hlength hscan, if_pos (h.ended hlength o hscan), if_pos (by omega),
      stored_congr hsame]
  · intro fault hfault
    by_cases hscan : ∃ o, ScansFrom line command o
    · obtain ⟨o, hscan⟩ := hscan
      by_cases hlength : 0 < length
      · rw [sysParsing_scans hlength hscan, if_pos (h.ended hlength o hscan)] at hfault
        split at hfault
        · cases hfault
        · exact (Except.error.inj hfault).symm
      · have hlength := Int.not_lt.mp hlength
        rw [sysParsing_noRoom hlength hscan,
          if_neg fun hhead => hhead.2 (h.room hlength o hscan hhead.1)] at hfault
        exact (Except.error.inj hfault).symm
    · rw [sysParsing_notFound (not_exists.mp hscan)] at hfault
      exact (Except.error.inj hfault).symm

/-- The condition is exact. -/
theorem parse_right_iff (line command : CString) (length : Int) :
    ParseRight line command length ↔ ParseCondition line command length :=
  ⟨ParseRight.condition, ParseCondition.right⟩

end

/-- The line `root`, in which `=` is missing. -/
theorem root_alone_wrong :
    ¬ ParseRight ⟨[114, 111, 111, 116], by decide⟩ ⟨[114, 111, 111, 116], by decide⟩ 16 := by
  intro h
  have hbeyond : sysParsing ⟨[114, 111, 111, 116], by decide⟩ ⟨[114, 111, 111, 116], by decide⟩ 16 =
      .error .beyond := by
    decide
  cases h.safe _ hbeyond

end FreeVMS.Boot
