import FreeVMS.Lib.Lagged
import FreeVMS.Rtl.Bytes

/-!
# The random numbers of capabilities

`sec_rand.c` is a Mersenne twister over `int`.  A word with its top bit set is negative there: `>>`
then shifts ones in, and `y % 2` is -1 and not 1 for an odd `y`.  So a number is that of the Mersenne
twister until one of three top bits is set: that of the word that is replaced, that of the new word,
and that of the number itself.

The bytes of a password are cut out of a number two bits apart and not eight, so that 14 of its 32
bits get into the password.
-/

namespace FreeVMS.Kernel

open Lib.Lagged
open Rtl (Byte)

/-- `mt`, `index` and `initialized` -/
structure Random where
  mt : Fin 624 → BitVec 32
  index : Fin 624
  initialized : Bool

/-- The body of the loop in `rand$init`. -/
def initRound (mt : Fin 624 → BitVec 32) (i : Fin 624) : Fin 624 → BitVec 32 :=
  Function.update mt i
    (0xffffffff#32 &&& 1812433253#32 * (mt (i - 1) ^^^ (mt (i - 1)).sshiftRight 30))

/-- `rand$init` -/
def randInit (seed : BitVec 32) (s : Random) : Random :=
  { s with
    mt := rounds (fun mt i => initRound mt (i + 1)) 623 (Function.update s.mt 0 seed)
    initialized := true }

/-- What takes the place of `mt[i]`, from `mt[i]`, `mt[i + 1]` and `mt[i + 397]`. -/
def generated (a b c : BitVec 32) : BitVec 32 :=
  let y := (a &&& 0x80000000#32) + (b &&& 0x7fffffff#32)
  let t := c ^^^ y.sshiftRight 1
  if y.srem 2#32 = 1#32 then t ^^^ 2567483615#32 else t

/-- The body of the loop in `rand$generate_number`. -/
def generateRound (mt : Fin 624 → BitVec 32) (i : Fin 624) : Fin 624 → BitVec 32 :=
  Function.update mt i (generated (mt i) (mt (i + 1)) (mt (i + 397)))

/-- `rand$generate_number` -/
def randGenerateNumber (s : Random) : Random :=
  let s := if s.initialized then s else randInit 1 s
  { s with mt := rounds generateRound 624 s.mt }

/-- The exclusive ors in the middle of `rand$extract_number`. -/
def masked (y : BitVec 32) : BitVec 32 :=
  let y := y ^^^ (y <<< 7 &&& 2636928640#32)
  y ^^^ (y <<< 15 &&& 4022730752#32)

/-- `y`, as `rand$extract_number` returns it. -/
def extracted (y : BitVec 32) : BitVec 32 :=
  let y := y ^^^ y.sshiftRight 11
  let y := masked y
  y ^^^ y.sshiftRight 18

/-- `rand$extract_number` without an argument. -/
def randExtractNumber (s : Random) : BitVec 64 × Random :=
  let s := if s.index = 0 then randGenerateNumber s else s
  ((extracted (s.mt s.index)).signExtend 64, { s with index := s.index + 1 })

/-- The four bytes of a number: `t` is shifted by two after each. -/
def numberBytes (t : BitVec 64) : List Byte :=
  [t.setWidth 8, (t >>> 2).setWidth 8, (t >>> 2 >>> 2).setWidth 8, (t >>> 2 >>> 2 >>> 2).setWidth 8]

/-- `n` rounds of the loop in `rand$extract_number(size)`. -/
def extractBytes : Nat → Random → List Byte × Random
  | 0, s => ([], s)
  | n + 1, s =>
      let (t, s) := randExtractNumber s
      let (rest, s) := extractBytes n s
      (numberBytes t ++ rest, s)

/-- `rand$extract_number(size)`, with the bytes of `r` as they are before it and as they are
    returned; `none` when it writes behind them. -/
def randExtractNumberOf (size : Nat) (r : Vector Byte 8) (s : Random) :
    Option (List Byte × Random) :=
  let (bytes, s) := extractBytes (size / 4) s
  if bytes.length ≤ 8 then some (bytes ++ r.toList.drop bytes.length, s) else none

/-- `cap.passwd` of `sec$create_capability`. -/
def passwd (r : Vector Byte 8) (s : Random) : Option (List Byte) :=
  (randExtractNumberOf 8 r s).map Prod.fst

/-! ### The Mersenne twister -/

/-- `x (k + 624)` from `x k`, `x (k + 1)` and `x (k + 397)`. -/
def twist (a b c : BitVec 32) : BitVec 32 :=
  let y := a &&& 0x80000000#32 ||| b &&& 0x7fffffff#32
  c ^^^ y >>> 1 ^^^ if y.getLsbD 0 then 0x9908b0df#32 else 0#32

/-- The word `k`, when the first 624 are given. -/
def mersenneWord (mt : Fin 624 → BitVec 32) (k : Nat) : BitVec 32 :=
  word (by decide : 1 < 624) (by decide : 397 < 624) twist mt k

def temper (y : BitVec 32) : BitVec 32 :=
  let y := y ^^^ y >>> 11
  let y := masked y
  y ^^^ y >>> 18

/-- The number `k`. -/
def mersenneNumber (mt : Fin 624 → BitVec 32) (k : Nat) : BitVec 32 :=
  temper (mersenneWord mt (k + 624))

/-- The state after `k` calls. -/
def afterCalls : Nat → Random → Random
  | 0, s => s
  | k + 1, s => (randExtractNumber (afterCalls k s)).2

/-- The low 32 bits of what the call `k` returns. -/
def output (s : Random) (k : Nat) : BitVec 32 := (randExtractNumber (afterCalls k s)).1.setWidth 32

/-- From the index 0, where the first call runs `rand$generate_number`, 624 calls return the numbers
    of the Mersenne twister. -/
def OutputsRight (mt : Fin 624 → BitVec 32) : Prop :=
  ∀ k, k < 624 → output ⟨mt, 0, true⟩ k = mersenneNumber mt k

/-- A password tells the two numbers that it is made of. -/
def PasswordsRight : Prop :=
  ∀ r r' s s', passwd r s = passwd r' s' → output s 0 = output s' 0 ∧ output s 1 = output s' 1

/-- The condition: no word is negative that is shifted. -/
def TopBitsClear (mt : Fin 624 → BitVec 32) : Prop :=
  ∀ k : Fin 624, (mt k).msb = false ∧ (mersenneWord mt (k + 624)).msb = false ∧
    (mersenneNumber mt k).msb = false

/-! ### One word -/

section

variable {a b c t d e f : BitVec 32}

/-- The ones that an arithmetic shift brings in. -/
def signOnes (y : BitVec 32) (n : Nat) : BitVec 32 :=
  if y.msb then ~~~(BitVec.allOnes 32 >>> n) else 0#32

theorem sshiftRight_eq_xor (y : BitVec 32) (n : Nat) :
    y.sshiftRight n = y >>> n ^^^ signOnes y n := by
  apply BitVec.eq_of_getLsbD_eq
  intro i hi
  rw [BitVec.getLsbD_sshiftRight, BitVec.getLsbD_xor, BitVec.getLsbD_ushiftRight, signOnes]
  have hout : ¬ 32 ≤ i := by omega
  cases hy : y.msb with
  | false =>
    by_cases hin : n + i < 32
    · simp [hin, hout]
    · simp [hin, hout, BitVec.getLsbD_of_ge y (n + i) (by omega)]
  | true =>
    rw [if_pos rfl, BitVec.getLsbD_not, BitVec.getLsbD_ushiftRight, BitVec.getLsbD_allOnes]
    by_cases hin : n + i < 32
    · simp [hin, hi, hout]
    · simp [hin, hi, hout, BitVec.getLsbD_of_ge y (n + i) (by omega)]

/-- What the signs change in a new word. -/
def signError (a b : BitVec 32) : BitVec 32 :=
  if a.msb then if b.getLsbD 0 then 0x1908b0df#32 else 0x80000000#32 else 0#32

/-- `y` in the recurrence. -/
theorem joined_eq (a b : BitVec 32) :
    (a &&& 0x80000000#32) + (b &&& 0x7fffffff#32) = a &&& 0x80000000#32 ||| b &&& 0x7fffffff#32 := by
  apply BitVec.add_eq_or_of_and_eq_zero
  have hconst : 0x80000000#32 &&& 0x7fffffff#32 = 0#32 := by decide
  calc (a &&& 0x80000000#32) &&& (b &&& 0x7fffffff#32)
      = (a &&& b) &&& (0x80000000#32 &&& 0x7fffffff#32) := by ac_rfl
    _ = 0#32 := by rw [hconst, BitVec.and_zero]

theorem srem_two_eq_one (y : BitVec 32) :
    y.srem 2#32 = 1#32 ↔ y.msb = false ∧ y.getLsbD 0 = true := by
  have htwo : (2#32).msb = false := by decide
  rw [BitVec.srem_eq, htwo]
  cases hy : y.msb with
  | false =>
    rw [← BitVec.toNat_inj, BitVec.getLsbD, Nat.testBit_zero]
    simp
  | true =>
    have hlt : (-y % 2#32).toNat < 2 := by
      rw [BitVec.toNat_umod]
      exact Nat.mod_lt _ (by decide)
    refine iff_of_false (fun h => ?_) (by simp)
    have hneg : -(-y % 2#32) = 1#32 := h
    rw [BitVec.neg_eq_iff_eq_neg] at hneg
    rw [hneg] at hlt
    exact absurd hlt (by decide)

theorem generated_eq (a b c : BitVec 32) : generated a b c = twist a b c ^^^ signError a b := by
  have hhigh : (2147483648#32).msb = true := by decide
  have hlower : (2147483647#32).msb = false := by decide
  have hmsb : (a &&& 0x80000000#32 ||| b &&& 0x7fffffff#32).msb = a.msb := by
    simp [hhigh, hlower]
  have hlow : (a &&& 0x80000000#32 ||| b &&& 0x7fffffff#32).getLsbD 0 = b.getLsbD 0 := by
    simp
  simp only [generated, joined_eq, srem_two_eq_one, sshiftRight_eq_xor, signOnes, hmsb, hlow, twist,
    signError]
  generalize (a &&& 0x80000000#32 ||| b &&& 0x7fffffff#32) >>> 1 = z
  cases a.msb with
  | false =>
    cases b.getLsbD 0 with
    | false => simp
    | true => simp [BitVec.xor_assoc]
  | true =>
    cases b.getLsbD 0 with
    | false => simp [BitVec.xor_assoc]
    | true => simp [BitVec.xor_assoc]

/-- `y ^ ((y << k) & m)` -/
def xorMask (k : Nat) (m y : BitVec 32) : BitVec 32 := y ^^^ (y <<< k &&& m)

theorem xorMask_xor (k : Nat) (m x y : BitVec 32) :
    xorMask k m (x ^^^ y) = xorMask k m x ^^^ xorMask k m y := by
  have hand : (x <<< k ^^^ y <<< k) &&& m = (x <<< k &&& m) ^^^ (y <<< k &&& m) := by
    apply BitVec.eq_of_getLsbD_eq
    intro i _
    simp [Bool.and_xor_distrib_right]
  rw [xorMask, BitVec.shiftLeft_xor_distrib, hand]
  simp only [xorMask]
  ac_rfl

theorem masked_eq (y : BitVec 32) :
    masked y = xorMask 15 4022730752#32 (xorMask 7 2636928640#32 y) := rfl

theorem masked_xor (x y : BitVec 32) : masked (x ^^^ y) = masked x ^^^ masked y := by
  rw [masked_eq, xorMask_xor, xorMask_xor, ← masked_eq, ← masked_eq]

/-- The last step of the tempering. -/
def folded (y : BitVec 32) : BitVec 32 := y ^^^ y >>> 18

theorem folded_xor (x y : BitVec 32) : folded (x ^^^ y) = folded x ^^^ folded y := by
  simp only [folded, BitVec.ushiftRight_xor_distrib]
  ac_rfl

theorem msb_folded (y : BitVec 32) : (folded y).msb = y.msb := by
  simp [folded, BitVec.msb_eq_getLsbD_last]

/-- The first step. -/
def spread (y : BitVec 32) : BitVec 32 := y ^^^ y >>> 11

theorem spread_xor (x y : BitVec 32) : spread (x ^^^ y) = spread x ^^^ spread y := by
  simp only [spread, BitVec.ushiftRight_xor_distrib]
  ac_rfl

theorem temper_eq (y : BitVec 32) : temper y = folded (masked (spread y)) := rfl

theorem extracted_eq (y : BitVec 32) : extracted y =
    folded (masked (spread y ^^^ signOnes y 11)) ^^^
      signOnes (masked (spread y ^^^ signOnes y 11)) 18 := by
  have hspread : y ^^^ y.sshiftRight 11 = spread y ^^^ signOnes y 11 := by
    rw [sshiftRight_eq_xor, ← BitVec.xor_assoc, ← spread]
  rw [extracted, hspread]
  rw [sshiftRight_eq_xor, ← BitVec.xor_assoc, ← folded]

/-- How far an extracted number is from that of the Mersenne twister. -/
theorem extracted_xor (t d : BitVec 32) : extracted (t ^^^ d) =
    temper t ^^^ (folded (masked (spread d ^^^ signOnes (t ^^^ d) 11)) ^^^
      signOnes (masked (spread (t ^^^ d) ^^^ signOnes (t ^^^ d) 11)) 18) := by
  rw [extracted_eq, temper_eq, ← BitVec.xor_assoc, ← folded_xor, ← masked_xor, ← BitVec.xor_assoc,
    ← spread_xor]

/-- The two errors do not cancel each other. -/
theorem error_eq_zero_iff (hd : d = 0x1908b0df#32 ∨ d = 0x80000000#32 ∨ d = 0#32)
    (x y : BitVec 32) :
    folded (masked (spread d ^^^ signOnes x 11)) ^^^ signOnes y 18 = 0#32 ↔
      d = 0#32 ∧ x.msb = false ∧ y.msb = false := by
  simp only [signOnes]
  generalize x.msb = p
  generalize y.msb = q
  rcases hd with rfl | rfl | rfl
  all_goals
    revert p q
    decide +kernel

theorem signError_mem (a b : BitVec 32) : signError a b = 0x1908b0df#32 ∨
    signError a b = 0x80000000#32 ∨ signError a b = 0#32 := by
  rw [signError]
  split_ifs <;> simp

theorem signError_eq_zero_iff (a b : BitVec 32) : signError a b = 0#32 ↔ a.msb = false := by
  rw [signError]
  cases a.msb <;> cases b.getLsbD 0 <;> decide

/-- A number of the code against one of the Mersenne twister, when the words before are the same. -/
theorem extracted_generated_iff (a b c : BitVec 32) :
    extracted (generated a b c) = temper (twist a b c) ↔
      a.msb = false ∧ (twist a b c).msb = false ∧ (temper (twist a b c)).msb = false := by
  rw [generated_eq, extracted_xor, ← BitVec.xor_zero (x := temper (twist a b c)), BitVec.xor_assoc,
    BitVec.xor_right_inj, BitVec.zero_xor, error_eq_zero_iff (signError_mem a b),
    signError_eq_zero_iff, BitVec.xor_zero]
  refine and_congr_right fun ha => ?_
  have hzero := (signError_eq_zero_iff a b).mpr ha
  rw [hzero, BitVec.xor_zero]
  refine and_congr_right fun ht => ?_
  rw [signOnes, ht, temper_eq, msb_folded]
  simp

end

/-! ### A run -/

section

variable {mt : Fin 624 → BitVec 32} {k : Nat}

/-- The word `k` of the code. -/
def codeWord (mt : Fin 624 → BitVec 32) (k : Nat) : BitVec 32 :=
  word (by decide : 1 < 624) (by decide : 397 < 624) generated mt k

theorem randGenerateNumber_eq (mt : Fin 624 → BitVec 32) (index : Fin 624) :
    randGenerateNumber ⟨mt, index, true⟩ = ⟨fun j => codeWord mt (j.val + 624), index, true⟩ := by
  have hrounds : rounds generateRound 624 mt = fun j => codeWord mt (j.val + 624) := by
    funext j
    exact rounds_eq (by decide : 1 < 624) (by decide : 397 < 624) j
  rw [randGenerateNumber, if_pos rfl, hrounds]

theorem randExtractNumber_zero (mt : Fin 624 → BitVec 32) :
    randExtractNumber ⟨mt, 0, true⟩ =
      ((extracted (codeWord mt 624)).signExtend 64, ⟨fun j => codeWord mt (j.val + 624), 1, true⟩) := by
  simp only [randExtractNumber, if_pos, randGenerateNumber_eq]
  rfl

theorem afterCalls_eq (hk : k < 624) : afterCalls (k + 1) ⟨mt, 0, true⟩ =
    ⟨fun j => codeWord mt (j.val + 624), Fin.ofNat 624 (k + 1), true⟩ := by
  induction k with
  | zero => rw [afterCalls, afterCalls, randExtractNumber_zero]; rfl
  | succ k ih =>
    have hne : Fin.ofNat 624 (k + 1) ≠ 0 := by
      rw [Ne, Fin.ext_iff, Fin.val_ofNat, Nat.mod_eq_of_lt hk]
      exact Nat.succ_ne_zero k
    rw [afterCalls, ih (by omega), randExtractNumber]
    simp only [if_neg hne]
    congr 1
    apply Fin.ext
    simp [Fin.val_add]

/-- The low bits of a number do not depend on its sign. -/
theorem setWidth_signExtend {n : Nat} (hn : n ≤ 32) (y : BitVec 32) :
    (y.signExtend 64).setWidth n = y.setWidth n := by
  apply BitVec.eq_of_getLsbD_eq
  intro i hi
  rw [BitVec.getLsbD_setWidth, BitVec.getLsbD_setWidth, BitVec.getLsbD_signExtend,
    if_pos (by omega)]
  simp [show i < 64 by omega]

theorem number_low (y : BitVec 32) : (y.signExtend 64).setWidth 32 = y := by
  rw [setWidth_signExtend (Nat.le_refl 32), BitVec.setWidth_eq]

theorem output_eq (hk : k < 624) : output ⟨mt, 0, true⟩ k = extracted (codeWord mt (k + 624)) := by
  cases k with
  | zero => rw [output, afterCalls, randExtractNumber_zero, number_low]
  | succ k =>
    have hval : (Fin.ofNat 624 (k + 1)).val = k + 1 := Nat.mod_eq_of_lt hk
    have hne : Fin.ofNat 624 (k + 1) ≠ 0 := by
      rw [Ne, Fin.ext_iff, hval]
      exact Nat.succ_ne_zero k
    rw [output, afterCalls_eq (by omega), randExtractNumber]
    simp only [if_neg hne, number_low, hval]

/-- The three top bits at the step `k`. -/
def ClearAt (mt : Fin 624 → BitVec 32) (k : Nat) : Prop :=
  (mersenneWord mt k).msb = false ∧ (mersenneWord mt (k + 624)).msb = false ∧
    (mersenneNumber mt k).msb = false

theorem topBitsClear_iff : TopBitsClear mt ↔ ∀ k, k < 624 → ClearAt mt k := by
  have hword : ∀ k : Fin 624, mersenneWord mt k = mt k := fun k => word_of_lt k.isLt
  constructor
  · intro h k hk
    have hclear := h ⟨k, hk⟩
    rwa [← hword] at hclear
  · intro h k
    rw [← hword k]
    exact h k k.isLt

theorem mersenneWord_add : mersenneWord mt (k + 624) =
    twist (mersenneWord mt k) (mersenneWord mt (k + 1)) (mersenneWord mt (k + 397)) := word_add

/-- With clear top bits up to `k` the words are those of the Mersenne twister. -/
theorem codeWord_eq {i : Nat} (h : ∀ j, j < i → ClearAt mt j) (hk : k < i + 624) :
    codeWord mt k = mersenneWord mt k := by
  have hsame : ∀ j, j < i → generated (mersenneWord mt j) (mersenneWord mt (j + 1))
      (mersenneWord mt (j + 397)) = mersenneWord mt (j + 624) := by
    intro j hj
    rw [generated_eq, (signError_eq_zero_iff _ _).mpr (h j hj).1, BitVec.xor_zero, mersenneWord_add]
  exact word_congr hsame hk

/-- The number `k` is right if and only if its top bits are clear, when those before were. -/
theorem output_right_iff (h : ∀ j, j < k → ClearAt mt j) (hk : k < 624) :
    output ⟨mt, 0, true⟩ k = mersenneNumber mt k ↔ ClearAt mt k := by
  have hcode : codeWord mt (k + 624) =
      generated (mersenneWord mt k) (mersenneWord mt (k + 1)) (mersenneWord mt (k + 397)) := by
    rw [← codeWord_eq h (by omega), ← codeWord_eq h (by omega), ← codeWord_eq h (by omega)]
    exact word_add
  rw [output_eq hk, hcode, ClearAt, mersenneNumber, mersenneWord_add]
  exact extracted_generated_iff _ _ _

theorem outputs_right_iff (mt : Fin 624 → BitVec 32) : OutputsRight mt ↔ TopBitsClear mt := by
  rw [topBitsClear_iff]
  constructor
  · intro h k
    induction k using Nat.strongRecOn with
    | ind k ih => exact fun hk => (output_right_iff (fun j hj => ih j hj (by omega)) hk).mp (h k hk)
  · exact fun h k hk => (output_right_iff (fun j hj => h j (by omega)) hk).mpr (h k hk)

end

/-! ### The passwords -/

section

variable {t t' : BitVec 64} {r r' : Vector Byte 8} {s s' : Random}

theorem length_numberBytes (t : BitVec 64) : (numberBytes t).length = 4 := rfl

/-- The bytes hold the low 14 bits and no others. -/
theorem numberBytes_eq_iff : numberBytes t = numberBytes t' ↔ t.setWidth 14 = t'.setWidth 14 := by
  simp only [numberBytes, List.cons.injEq, and_true]
  constructor
  · rintro ⟨hfirst, -, -, hlast⟩
    apply BitVec.eq_of_getLsbD_eq
    intro i hi
    by_cases hlow : i < 8
    · have hbit := congrArg (BitVec.getLsbD · i) hfirst
      simpa [hlow, hi] using hbit
    · have hbit := congrArg (BitVec.getLsbD · (i - 6)) hlast
      have hsum : 6 + (i - 6) = i := by omega
      have hin : i - 6 < 8 := by omega
      simpa [hsum, hin, hi] using hbit
  · intro h
    have hbyte : ∀ n, n ≤ 6 → (t >>> n).setWidth 8 = (t' >>> n).setWidth 8 := by
      intro n hn
      apply BitVec.eq_of_getLsbD_eq
      intro i hi
      have hbit := congrArg (BitVec.getLsbD · (n + i)) h
      have hin : n + i < 14 := by omega
      simpa [hi, hin] using hbit
    simp only [← BitVec.shiftRight_add]
    exact ⟨hbyte 0 (by omega), hbyte 2 (by omega), hbyte 4 (by omega), hbyte 6 (by omega)⟩

theorem randExtractNumber_fst (s : Random) :
    (randExtractNumber s).1 = (((randExtractNumber s).1.setWidth 32).signExtend 64) := by
  rw [randExtractNumber, number_low]

/-- A password is made of two numbers. -/
theorem passwd_eq (r : Vector Byte 8) (s : Random) : passwd r s =
    some (numberBytes ((output s 0).signExtend 64) ++ numberBytes ((output s 1).signExtend 64)) := by
  have hbytes : (extractBytes 2 s).1 =
      numberBytes ((output s 0).signExtend 64) ++ numberBytes ((output s 1).signExtend 64) := by
    rw [output, output, afterCalls, ← randExtractNumber_fst, ← randExtractNumber_fst]
    simp [extractBytes, afterCalls]
  rw [passwd, randExtractNumberOf]
  simp only [show 8 / 4 = 2 from rfl, hbytes, List.length_append, length_numberBytes]
  simp [List.drop_of_length_le]

/-- Which passwords are the same. -/
theorem passwd_eq_iff : passwd r s = passwd r' s' ↔
    (output s 0).setWidth 14 = (output s' 0).setWidth 14 ∧
      (output s 1).setWidth 14 = (output s' 1).setWidth 14 := by
  rw [passwd_eq, passwd_eq, Option.some.injEq, ← setWidth_signExtend (by decide),
    ← setWidth_signExtend (by decide), ← setWidth_signExtend (by decide),
    ← setWidth_signExtend (by decide), ← numberBytes_eq_iff, ← numberBytes_eq_iff]
  constructor
  · exact fun h => List.append_inj h (by rw [length_numberBytes, length_numberBytes])
  · rintro ⟨hfirst, hsecond⟩
    rw [hfirst, hsecond]

end

/-- A state in which the second number is next, and the words that are read are given. -/
def secondNext (first second : BitVec 32) : Random :=
  ⟨Function.update (Function.update (fun _ => 0#32) 1 first) 2 second, 1, true⟩

/-- A number other than 0 with low bits like those of 0. -/
theorem not_passwordsRight : ¬ PasswordsRight := by
  intro h
  have hlow : (output (secondNext 0x2c382e7a#32 0#32) 0).setWidth 14 =
        (output (secondNext 0#32 0#32) 0).setWidth 14 ∧
      (output (secondNext 0x2c382e7a#32 0#32) 1).setWidth 14 =
        (output (secondNext 0#32 0#32) 1).setWidth 14 := by
    decide
  have hnumbers := h (Vector.replicate 8 0) (Vector.replicate 8 0) _ _ (passwd_eq_iff.mpr hlow)
  exact absurd hnumbers.1 (by decide)

/-- The numbers are right if and only if the three top bits are clear at each step.  Passwords are
    the same if and only if the numbers agree in their low 14 bits, so that they do not tell the
    numbers. -/
theorem twister_right_iff (mt : Fin 624 → BitVec 32) :
    ¬ (OutputsRight mt ∧ PasswordsRight) ∧ (OutputsRight mt ↔ TopBitsClear mt) ∧
      ∀ r r' s s', passwd r s = passwd r' s' ↔
        (output s 0).setWidth 14 = (output s' 0).setWidth 14 ∧
          (output s 1).setWidth 14 = (output s' 1).setWidth 14 :=
  ⟨fun h => not_passwordsRight h.2, outputs_right_iff mt, fun _ _ _ _ => passwd_eq_iff⟩

/-- Words with their top bits set, and the passwords. -/
theorem negative_words_wrong : ¬ OutputsRight (fun _ => 0x80000000#32) ∧ ¬ PasswordsRight := by
  refine ⟨fun h => ?_, not_passwordsRight⟩
  have hclear := ((outputs_right_iff _).mp h 0).1
  exact absurd hclear (by decide)

end FreeVMS.Kernel
