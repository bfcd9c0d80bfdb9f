import FreeVMS.Rtl.Bytes

/-!
# String descriptors

The routines through which the string library reaches its operands: what a descriptor of each
class stands for, how the destination is brought to a size, and how text is put into it.
`malloc` space is given out where `place` says, at address 0 when there is none.
-/

namespace FreeVMS.Rtl.Str

/-! ## The statuses, named as in the source -/

def strNormal : Nat := 1

def strFatinterr : Nat := 2392132

def strIllstrcla : Nat := 2392148

def strInsvirmem : Nat := 2392172

def strStrtoolon : Nat := 2392180

def strTru : Nat := 2392576

def strIllstrpos : Nat := 2393097

/-- How a call ends when it does not return. -/
inductive Fault where
  /-- `DOSIGNAL(x)`, which is `assert(x && 0)` -/
  | signal (status : Nat)
  | assertion
  | nullPointer
  /-- `free` of an address that is not the start of an allocation -/
  | badFree
  deriving DecidableEq, Repr

/-- `dsc$b_class` -/
inductive DscClass where
  | z | s | d | a | sd | nca | vs
  | other (code : Byte)
  deriving DecidableEq, Repr

/-- `struct dsc$descriptor_s` -/
structure Descriptor where
  wLength : BitVec 16
  bClass : DscClass
  aPointer : Nat
  deriving DecidableEq, Repr

/-- What `calloc` gave out and `free` has not taken back. -/
structure Block where
  address : Nat
  size : Nat
  deriving DecidableEq, Repr

structure Store where
  memory : Memory
  blocks : List Block

/-- What a call leaves: its status, the destination descriptor and the memory. -/
structure Outcome where
  status : Nat
  destination : Descriptor
  store : Store

/-! ## The C library -/

/-- The regions must not overlap. -/
def memcpy (m : Memory) (dest source n : Nat) : Memory := fun a =>
  if dest ≤ a ∧ a < dest + n then m (source + (a - dest)) else m a

def calloc (place : Store → Nat → Nat) (σ : Store) (n : Nat) : Nat × Store :=
  let p := place σ n
  if p = 0 then (0, σ)
  else (p, ⟨fun a => if p ≤ a ∧ a < p + n then 0 else σ.memory a, ⟨p, n⟩ :: σ.blocks⟩)

def free (σ : Store) (p : Nat) : Except Fault Store :=
  if p ∈ σ.blocks.map Block.address then
    .ok { σ with blocks := σ.blocks.filter fun b => b.address ≠ p }
  else .error .badFree

/-! ## The descriptor routines -/

/-- `str$$is_string_class` -/
def isStringClass (testString : Descriptor) : Nat :=
  match testString.bClass with
  | .z | .s | .sd | .vs | .d | .a | .nca => strNormal
  | .other _ => strIllstrcla

/-- `str$analyze_sdesc`: the length and the address. The length of a varying string is read
through a `char` pointer: one byte, with its sign. -/
def strAnalyzeSdesc (m : Memory) (inputDescriptor : Descriptor) : Except Fault (BitVec 16 × Nat) :=
  if isStringClass inputDescriptor ≠ strNormal then .error (.signal strIllstrcla)
  else if inputDescriptor.aPointer = 0 ∧ inputDescriptor.wLength ≠ 0 then .error .assertion
  else if inputDescriptor.bClass = .vs then
    if inputDescriptor.aPointer = 0 then .error .nullPointer
    else
      let wordIntegerLength := (m inputDescriptor.aPointer).signExtend 16
      if wordIntegerLength ≤ inputDescriptor.wLength then
        .ok (wordIntegerLength, inputDescriptor.aPointer + 2)
      else .error .assertion
  else .ok (inputDescriptor.wLength, inputDescriptor.aPointer)

/-- `str$free1_dx` -/
def strFree1Dx (d : Descriptor) (σ : Store) : Except Fault Outcome := do
  if isStringClass d ≠ strNormal then throw (.signal strIllstrcla)
  if d.aPointer = 0 then return ⟨strNormal, d, σ⟩
  let σ ← free σ d.aPointer
  return ⟨strNormal, { d with aPointer := 0, wLength := 0 }, σ⟩

/-- `for (i = 0; i < n; i++) dest[i] = source[i];` -/
def copyLoop (m : Memory) (dest source : Nat) : Nat → Memory
  | 0 => m
  | i + 1 =>
    let m := copyLoop m dest source i
    Function.update m (dest + i) (m (source + i))

/-- `str$get1_dx` -/
def strGet1Dx (place : Store → Nat → Nat) (length : BitVec 16) (d : Descriptor) (σ : Store) :
    Except Fault Outcome := do
  if d.bClass ≠ .d then throw (.signal strIllstrcla)
  if d.aPointer ≠ 0 then
    if d.wLength = length then return ⟨strNormal, d, σ⟩
    if length = 0 then
      let σ ← free σ d.aPointer
      return ⟨strNormal, { d with aPointer := 0, wLength := length }, σ⟩
    let (newMemory, σ) := calloc place σ length.toNat
    if newMemory = 0 then throw (.signal strInsvirmem)
    let minlen := min d.wLength.toNat length.toNat
    let σ ← free { σ with memory := copyLoop σ.memory newMemory d.aPointer minlen } d.aPointer
    return ⟨strNormal, { d with aPointer := newMemory, wLength := length }, σ⟩
  if length = 0 then return ⟨strNormal, { d with wLength := length }, σ⟩
  let (newMemory, σ) := calloc place σ length.toNat
  if newMemory = 0 then throw (.signal strInsvirmem)
  return ⟨strNormal, { d with aPointer := newMemory, wLength := length }, σ⟩

/-- A word in memory, low byte first. -/
def storeWord (m : Memory) (p : Nat) (w : BitVec 16) : Memory :=
  Function.update (Function.update m p (w.setWidth 8)) (p + 1) ((w >>> 8).setWidth 8)

/-- `str$$resize` -/
def strResize (place : Store → Nat → Nat) (d : Descriptor) (size : BitVec 16) (σ : Store) :
    Except Fault Outcome :=
  match d.bClass with
  | .z | .s | .sd | .a | .nca =>
    if d.aPointer = 0 then .error (.signal strFatinterr) else .ok ⟨strNormal, d, σ⟩
  | .d => strGet1Dx place size d σ
  | .vs =>
    if d.aPointer = 0 then .error (.signal strFatinterr)
    else
      let resize := if d.wLength < size then d.wLength else size
      .ok ⟨strNormal, d, { σ with memory := storeWord σ.memory d.aPointer resize }⟩
  | .other _ => .error (.signal strIllstrcla)

/-- `for (; i < i + n; i++) dest[i] = fill;` -/
def fillLoop (m : Memory) (dest : Nat) (fill : Byte) (i : Nat) : Nat → Memory
  | 0 => m
  | n + 1 => fillLoop (Function.update m (dest + i) fill) dest fill (i + 1) n

/-- `str$$copy_fill` -/
def strCopyFill (m : Memory) (dest destLength source sourceLength : Nat) (fill : Byte) :
    Nat × Memory :=
  let maxCopy := min destLength sourceLength
  let m := if source ≠ 0 then memcpy m dest source maxCopy else m
  let m := if maxCopy < destLength then fillLoop m dest fill maxCopy (destLength - maxCopy) else m
  (if destLength < sourceLength then strTru else strNormal, m)

/-- `' '` -/
def blank : Byte := 32

/-- `str$copy_r` -/
def strCopyR (place : Store → Nat → Nat) (d : Descriptor) (sourceLength : BitVec 16)
    (source : Nat) (σ : Store) : Except Fault Outcome := do
  let s2Length := if source ≠ 0 then sourceLength.toNat else 0
  if isStringClass d ≠ strNormal then throw (.signal (isStringClass d))
  let resized ← strResize place d sourceLength σ
  if resized.status ≠ strNormal then return resized
  let (s1Length, s1) ← strAnalyzeSdesc resized.store.memory resized.destination
  let (result, memory) := strCopyFill resized.store.memory s1 s1Length.toNat source s2Length blank
  return ⟨result, resized.destination, { resized.store with memory := memory }⟩

/-! ## What is in the buffer afterwards -/

/-- A string cut to `m` bytes or padded with blanks to `m`. -/
def padded (m : Nat) (s : List Byte) : List Byte :=
  s.take m ++ List.replicate (m - s.length) blank

theorem padded_eq_map (m : Nat) (s : List Byte) :
    padded m s = (List.range m).map fun t => s.getD t blank := by
  apply List.ext_getElem
  · simp only [padded, List.length_append, List.length_take, List.length_replicate,
      List.length_map, List.length_range]
    omega
  · intro t ht _
    simp only [padded, List.getElem_append, List.length_take, List.getElem_map,
      List.getElem_range, List.getD_eq_getElem?_getD]
    split
    · next h =>
      have hs : t < s.length := by omega
      simp [List.getElem?_eq_getElem hs]
    · next h =>
      have hs : s.length ≤ t := by
        simp only [padded, List.length_append, List.length_take, List.length_replicate] at ht
        omega
      simp [List.getElem?_eq_none hs]

/-- A string of at least `m` bytes is cut. -/
theorem padded_of_le {m : Nat} {s : List Byte} (h : m ≤ s.length) : padded m s = s.take m := by
  simp [padded, Nat.sub_eq_zero_of_le h]

theorem getD_bytesAt (m : Memory) (p n t : Nat) (b : Byte) :
    (bytesAt m p n).getD t b = if t < n then m (p + t) else b := by
  split
  · next h => simp [bytesAt, h]
  · next h => simp [bytesAt, Nat.le_of_not_lt h]

theorem fillLoop_apply (m : Memory) (dest : Nat) (fill : Byte) (i n a : Nat) :
    fillLoop m dest fill i n a = if dest + i ≤ a ∧ a < dest + i + n then fill else m a := by
  induction n generalizing m i with
  | zero =>
    rw [fillLoop, if_neg]
    omega
  | succ n ih =>
    rw [fillLoop, ih]
    by_cases ha : a = dest + i
    · subst ha
      rw [if_neg (by omega), if_pos (by omega), Function.update_self]
    · rw [Function.update_of_ne ha]
      split_ifs <;> first | rfl | omega

/-- Every byte after `str$$copy_fill`: inside the destination the text and then the fill
character, outside it what was there. -/
theorem strCopyFill_apply (m : Memory) (dest n source k : Nat) (fill : Byte)
    (hnull : source = 0 → k = 0) (a : Nat) :
    (strCopyFill m dest n source k fill).2 a =
      if dest ≤ a ∧ a < dest + n then
        if a - dest < k then m (source + (a - dest)) else fill
      else m a := by
  have hcopy : ∀ b, (if source ≠ 0 then memcpy m dest source (min n k) else m) b =
      if dest ≤ b ∧ b < dest + min n k then m (source + (b - dest)) else m b := by
    intro b
    by_cases hs : source = 0
    · rw [if_neg (not_not.mpr hs), hnull hs, Nat.min_zero, if_neg (by omega)]
    · rw [if_pos hs, memcpy]
  by_cases hlt : min n k < n
  · simp only [strCopyFill, if_pos hlt, fillLoop_apply, hcopy]
    split_ifs <;> first | rfl | omega
  · simp only [strCopyFill, if_neg hlt, hcopy]
    split_ifs <;> first | rfl | omega

theorem strCopyFill_bytes (m : Memory) (dest n source k : Nat) (hnull : source = 0 → k = 0) :
    bytesAt (strCopyFill m dest n source k blank).2 dest n = padded n (bytesAt m source k) := by
  rw [padded_eq_map, bytesAt]
  apply List.map_congr_left
  intro t ht
  have ht := List.mem_range.mp ht
  rw [strCopyFill_apply m dest n source k blank hnull, if_pos (by omega), getD_bytesAt,
    Nat.add_sub_cancel_left]

end FreeVMS.Rtl.Str
