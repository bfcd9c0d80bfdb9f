import FreeVMS.Rtl.Decimal
import FreeVMS.Rtl.StrDynamic

/-!
# The trims in memory

`str$$lzerotrim`, `str$$rzerotrim` and `str$$iszerotrim` work on the characters of a dynamic string in
place, one zero at a time, and then bring the string to its new length.  What they leave is what the
trims of lists leave; two numbers of the same value get the same digits and exponent, even where the
exponent has wrapped around.
-/

namespace FreeVMS.Rtl.Num

open Lib.Scaled Str
open Run (Ends)

/-! ## The routines -/

/-- `for (j = i; j < s1_len; j++) s1_ptr[j] = s1_ptr[j+1];` with `n` rounds to go. -/
def shuffle (m : Memory) (s1Ptr j : Nat) : Nat → Memory
  | 0 => m
  | n + 1 => shuffle (Function.update m (s1Ptr + j) (m (s1Ptr + j + 1))) s1Ptr (j + 1) n

/-- The loop of `str$$lzerotrim`: memory and `s1_len` behind it. `i` is always 0. -/
def lzeroLoop (m : Memory) (s1Ptr : Nat) : Nat → Memory × Nat
  | 0 => (m, 0)
  | len + 1 =>
    if m s1Ptr = zero ∧ 0 < len then lzeroLoop (shuffle m s1Ptr 0 (len + 1)) s1Ptr len
    else (m, len + 1)

/-- `str$$lzerotrim`. It returns `count`, which is never set. -/
def strLzerotrim (place : Store → Nat → Nat) (sd1 : Descriptor) (σ : Store) :
    Except Str.Fault Outcome := do
  let (s1Len, s1Ptr) ← strAnalyzeSdesc σ.memory sd1
  if s1Ptr = 0 then throw .nullPointer
  let (m, s1Len) := lzeroLoop σ.memory s1Ptr s1Len.toNat
  strGet1Dx place (BitVec.ofNat 16 s1Len) sd1 { σ with memory := m }

/-- The loop of `str$$rzerotrim` from `i` down. -/
def rzeroLoop (m : Memory) (s1Ptr : Nat) :
    Nat → BitVec 16 → BitVec 64 → Memory × BitVec 16 × BitVec 64
  | 0, s1Len, exp => (m, s1Len, exp)
  | i + 1, s1Len, exp =>
    if m (s1Ptr + (i + 1)) = zero then
      rzeroLoop (Function.update m (s1Ptr + (i + 1)) blank) s1Ptr i (s1Len - 1) (exp + 1)
    else (m, s1Len, exp)

/-- `str$$rzerotrim` -/
def strRzerotrim (place : Store → Nat → Nat) (sd1 : Descriptor) (exp : BitVec 64) (σ : Store) :
    Except Str.Fault (Outcome × BitVec 64) := do
  let (s1Len, s1Ptr) ← strAnalyzeSdesc σ.memory sd1
  if s1Ptr = 0 then throw .nullPointer
  let (m, s1Len, exp) := rzeroLoop σ.memory s1Ptr (s1Len.toNat - 1) s1Len exp
  let out ← strGet1Dx place s1Len sd1 { σ with memory := m }
  let _ ← strAnalyzeSdesc out.store.memory out.destination
  return (out, exp)

/-- `is_zero` -/
def isZeroLoop (m : Memory) (s1Ptr : Nat) : Nat → Bool
  | 0 => true
  | n + 1 => isZeroLoop m s1Ptr n && m (s1Ptr + n) == zero

/-- `str$$iszerotrim` -/
def strIszerotrim (sd1 : Descriptor) (exp : BitVec 64) (m : Memory) :
    Except Str.Fault (BitVec 64) := do
  let (s1Len, s1Ptr) ← strAnalyzeSdesc m sd1
  return if s1Ptr ≠ 0 ∧ isZeroLoop m s1Ptr s1Len.toNat = true then 0 else exp

/-- The three behind each other. -/
def strTrims (place : Store → Nat → Nat) (sd1 : Descriptor) (exp : BitVec 64) (σ : Store) :
    Except Str.Fault (Outcome × BitVec 64) := do
  let out ← strLzerotrim place sd1 σ
  let (out, exp) ← strRzerotrim place out.destination exp out.store
  let exp ← strIszerotrim out.destination exp out.store.memory
  return (out, exp)

/-! ## The loops -/

section

variable {m : Memory} {p : Nat} {s : List Byte} {exp : BitVec 64}

theorem shuffle_apply (m : Memory) (p j n a : Nat) :
    shuffle m p j n a = if p + j ≤ a ∧ a < p + j + n then m (a + 1) else m a := by
  induction n generalizing m j with
  | zero => rw [shuffle, if_neg (by omega)]
  | succ n ih =>
    rw [shuffle, ih]
    by_cases hin : p + (j + 1) ≤ a ∧ a < p + (j + 1) + n
    · rw [if_pos hin, if_pos (by omega), Function.update_of_ne (by omega)]
    · rw [if_neg hin]
      by_cases ha : a = p + j
      · rw [if_pos (by omega), ha, Function.update_self]
      · rw [if_neg (by omega), Function.update_of_ne ha]

/-- The string is shortened from the front, and nothing outside it changes. -/
theorem lzeroLoop_spec (hs : s ≠ []) (hm : bytesAt m p s.length = s) :
    (lzeroLoop m p s.length).2 = (lzerotrim s).length ∧
      bytesAt (lzeroLoop m p s.length).1 p (lzerotrim s).length = lzerotrim s ∧
      ∀ a, ¬ (p ≤ a ∧ a < p + s.length) → (lzeroLoop m p s.length).1 a = m a := by
  induction s generalizing m with
  | nil => exact absurd rfl hs
  | cons c s ih =>
    have hwhole := hm
    rw [List.length_cons, bytesAt_succ, List.cons.injEq] at hm
    obtain ⟨hc, hm⟩ := hm
    cases s with
    | nil =>
      have hstop : lzeroLoop m p 1 = (m, 1) := if_neg fun h => absurd h.2 (Nat.lt_irrefl 0)
      rw [List.length_singleton, hstop]
      exact ⟨rfl, hwhole, fun _ _ => rfl⟩
    | cons d s =>
      by_cases hzero : c = zero
      · have hstep : lzeroLoop m p (c :: d :: s).length =
            lzeroLoop (shuffle m p 0 (c :: d :: s).length) p (d :: s).length :=
          if_pos ⟨hc.trans hzero, Nat.succ_pos _⟩
        have hshuffled : bytesAt (shuffle m p 0 (c :: d :: s).length) p (d :: s).length = d :: s := by
          refine (List.map_congr_left fun i hi => ?_).trans hm
          have hi := List.mem_range.mp hi
          rw [shuffle_apply, if_pos (by rw [List.length_cons]; omega)]
          congr 1
          omega
        obtain ⟨hlen, hbytes, hout⟩ := ih (List.cons_ne_nil d s) hshuffled
        rw [hstep, lzerotrim, if_pos hzero]
        refine ⟨hlen, hbytes, fun a ha => ?_⟩
        rw [List.length_cons] at ha
        rw [hout a (by omega), shuffle_apply, if_neg (by rw [List.length_cons]; omega)]
      · have hstop : lzeroLoop m p (c :: d :: s).length = (m, (c :: d :: s).length) :=
          if_neg fun h => hzero (hc.symm.trans h.1)
        rw [hstop, lzerotrim, if_neg hzero]
        exact ⟨rfl, hwhole, fun _ _ => rfl⟩

/-- From the end. -/
theorem rzerotrim_concat (hs : s ≠ []) (c : Byte) : rzerotrim (s ++ [c]) exp =
    if c = zero then rzerotrim s (exp + 1) else (s ++ [c], exp) := by
  obtain ⟨d, t, ht⟩ := List.exists_cons_of_ne_nil (List.reverse_eq_nil_iff.not.mpr hs)
  rw [rzerotrim, List.reverse_concat, ht, rzerotrimEnd]
  split_ifs with hc
  · rw [rzerotrim, ht]
  · rw [← ht, List.reverse_cons, List.reverse_reverse]

theorem rzeroLoop_spec (exp : BitVec 64) {len : BitVec 16} (hs : s ≠ []) (hlen : len.toNat = s.length)
    (hm : bytesAt m p s.length = s) :
    (rzeroLoop m p (s.length - 1) len exp).2.1.toNat = (rzerotrim s exp).1.length ∧
      bytesAt (rzeroLoop m p (s.length - 1) len exp).1 p (rzerotrim s exp).1.length =
        (rzerotrim s exp).1 ∧
      (rzeroLoop m p (s.length - 1) len exp).2.2 = (rzerotrim s exp).2 ∧
      ∀ a, ¬ (p ≤ a ∧ a < p + s.length) → (rzeroLoop m p (s.length - 1) len exp).1 a = m a := by
  induction s using List.reverseRecOn generalizing m len exp with
  | nil => exact absurd rfl hs
  | append_singleton s c ih =>
    rw [List.length_append, List.length_singleton] at hm hlen
    rw [List.length_append, List.length_singleton, Nat.add_sub_cancel]
    have hwhole := hm
    rw [bytesAt_snoc] at hm
    obtain ⟨hm, hc⟩ := List.append_inj hm (length_bytesAt _ _ _)
    have hc : m (p + s.length) = c := (List.cons.inj hc).1
    by_cases hnil : s = []
    · subst hnil
      refine ⟨hlen, ?_, rfl, fun _ _ => rfl⟩
      exact congrArg (fun b => [b]) hc
    · obtain ⟨l, hl⟩ := Nat.exists_eq_succ_of_ne_zero (mt List.length_eq_zero_iff.mp hnil)
      rw [rzerotrim_concat hnil]
      by_cases hzero : c = zero
      · have hstep : rzeroLoop m p s.length len exp =
            rzeroLoop (Function.update m (p + s.length) blank) p (s.length - 1) (len - 1) (exp + 1) := by
          rw [hl] at hc ⊢
          rw [rzeroLoop, if_pos (hc.trans hzero)]
          rfl
        have hlen' : (len - 1).toNat = s.length := by
          have hone : (1 : BitVec 16) ≤ len := by
            rw [BitVec.le_def, hlen]
            exact Nat.succ_le_succ (Nat.zero_le _)
          rw [BitVec.toNat_sub_of_le hone, hlen]
          rfl
        have hm' : bytesAt (Function.update m (p + s.length) blank) p s.length = s := by
          rw [bytesAt_congr fun i hi => Function.update_of_ne (show p + i ≠ p + s.length by omega) _ _, hm]
        obtain ⟨hlen₁, hbytes, hexp, hout⟩ := ih (exp + 1) hnil hlen' hm'
        rw [hstep, if_pos hzero]
        refine ⟨hlen₁, hbytes, hexp, fun a ha => ?_⟩
        rw [hout a (by omega), Function.update_of_ne (by omega)]
      · have hstop : rzeroLoop m p s.length len exp = (m, len, exp) := by
          rw [hl] at hc ⊢
          rw [rzeroLoop, if_neg fun h => hzero (hc.symm.trans h)]
        rw [hstop, if_neg hzero]
        rw [List.length_append, List.length_singleton]
        exact ⟨hlen, hwhole, rfl, fun _ _ => rfl⟩

theorem isZeroLoop_iff (n : Nat) (hm : bytesAt m p n = s) :
    isZeroLoop m p n = true ↔ ∀ c ∈ s, c = zero := by
  induction n generalizing s with
  | zero =>
    subst hm
    simp [isZeroLoop]
  | succ n ih =>
    rw [bytesAt_snoc] at hm
    subst hm
    rw [isZeroLoop, Bool.and_eq_true, ih rfl, beq_iff_eq, List.forall_mem_append,
      List.forall_mem_singleton]

end

/-! ## The routines on a dynamic string -/

/-- The digits and the exponent behind the trims. -/
def trimmed (exp : BitVec 64) (s : List Byte) : List Byte × BitVec 64 :=
  ((rzerotrim (lzerotrim s) exp).1,
    iszerotrim (rzerotrim (lzerotrim s) exp).1 (rzerotrim (lzerotrim s) exp).2)

section

variable {place : Store → Nat → Nat} {static : Nat → Prop} {σ : Store} {d : Descriptor} {q : Nat}
  {s t : List Byte} {exp : BitVec 64} {out : Outcome}

theorem leaves_refl (hσ : Tidy static σ) (hd : Dynamic σ d s) (status : Nat) :
    Leaves static σ d.aPointer s ⟨status, d, σ⟩ := ⟨hσ, hd, Frame.refl⟩

theorem pointer_ne_zero (hd : Dynamic σ d s) (hs : s ≠ []) : d.aPointer ≠ 0 :=
  hd.owned.elim (fun h => absurd h.2 hs) fun h => h.1

/-- A string is edited in its block and then shortened to what it begins with. -/
theorem edit_then_shorten (ha : Allocates place static) (hσ : Tidy static σ) (hd : Dynamic σ d s)
    {m : Memory} (hlen : t.length ≤ s.length) (hm : bytesAt m d.aPointer t.length = t)
    (hout : ∀ a, ¬ (d.aPointer ≤ a ∧ a < d.aPointer + s.length) → m a = σ.memory a) :
    Gives place static σ d.aPointer Str.strNormal t
      (strGet1Dx place (BitVec.ofNat 16 t.length) d { σ with memory := m }) := by
  have hwrite := (leaves_refl hσ hd 0).write (length_bytesAt m d.aPointer s.length) hout
    (by rw [length_bytesAt]) 0
  have hlt : (BitVec.ofNat 16 t.length).toNat = t.length := by
    rw [BitVec.toNat_ofNat, Nat.mod_eq_of_lt (Nat.lt_of_le_of_lt hlen hd.lt)]
  have hget := strGet1Dx_dynamic ha hwrite.tidy hwrite.dynamic (BitVec.ofNat 16 t.length)
  have htake : sized (BitVec.ofNat 16 t.length).toNat (bytesAt m d.aPointer s.length) = t := by
    have hsplit := bytesAt_add m d.aPointer t.length (s.length - t.length)
    rw [Nat.add_sub_cancel' hlen, hm] at hsplit
    rw [hlt, sized, length_bytesAt, Nat.sub_eq_zero_of_le hlen, List.replicate_zero, List.append_nil,
      hsplit, List.take_left']
    rfl
  rw [htake] at hget
  exact Gives.after hwrite hget

theorem strLzerotrim_gives (ha : Allocates place static) (hσ : Tidy static σ) (hd : Dynamic σ d s)
    (hs : s ≠ []) :
    Gives place static σ d.aPointer Str.strNormal (lzerotrim s) (strLzerotrim place d σ) := by
  obtain ⟨hlen, hbytes, hout⟩ := lzeroLoop_spec hs hd.bytes
  obtain ⟨t, hsplit, -⟩ := lzerotrim_spec hs
  have hle : (lzerotrim s).length ≤ s.length := by
    have hsum := congrArg List.length hsplit
    rw [List.length_append] at hsum
    omega
  simp only [strLzerotrim, hd.analyzed, ok_bind, if_neg (pointer_ne_zero hd hs), hd.length, hlen]
  exact edit_then_shorten ha hσ hd hle hbytes hout

/-- With an exponent besides. -/
def GivesExp (place : Store → Nat → Nat) (static : Nat → Prop) (σ : Store) (q : Nat)
    (s : List Byte) (exp : BitVec 64) (call : Except Str.Fault (Outcome × BitVec 64)) : Prop :=
  Ends (OutOfMemory place) (fun r => Leaves static σ q s r.1 ∧ r.2 = exp) call

theorem strRzerotrim_gives (exp : BitVec 64) (ha : Allocates place static) (hσ : Tidy static σ) (hd : Dynamic σ d s)
    (hs : s ≠ []) : GivesExp place static σ d.aPointer (rzerotrim s exp).1 (rzerotrim s exp).2
      (strRzerotrim place d exp σ) := by
  obtain ⟨hlen, hbytes, hexp, hout⟩ := rzeroLoop_spec exp hs hd.length hd.bytes
  obtain ⟨t, hsplit, -⟩ := rzerotrim_spec hs exp
  have hle : (rzerotrim s exp).1.length ≤ s.length := by
    have hsum := congrArg List.length hsplit
    rw [List.length_append] at hsum
    omega
  have hw : (rzeroLoop σ.memory d.aPointer (s.length - 1) d.wLength exp).2.1 =
      BitVec.ofNat 16 (rzerotrim s exp).1.length := by
    rw [← hlen, BitVec.ofNat_toNat, BitVec.setWidth_eq]
  simp only [strRzerotrim, hd.analyzed, ok_bind, if_neg (pointer_ne_zero hd hs), hd.length, hw, hexp]
  apply Ends.bind (edit_then_shorten ha hσ hd hle hbytes hout)
  rintro out ⟨-, hleaves⟩
  rw [hleaves.dynamic.analyzed, ok_bind]
  exact .ok ⟨hleaves, rfl⟩

theorem strIszerotrim_eq (hd : Dynamic σ d s) (hs : s ≠ []) :
    strIszerotrim d exp σ.memory = .ok (iszerotrim s exp) := by
  have hiff : (d.aPointer ≠ 0 ∧ isZeroLoop σ.memory d.aPointer s.length = true) ↔
      (s ≠ [] ∧ ∀ c ∈ s, c = zero) := by
    rw [isZeroLoop_iff _ hd.bytes]
    exact and_congr_left fun _ => iff_of_true (pointer_ne_zero hd hs) hs
  simp only [strIszerotrim, hd.analyzed, ok_bind, hd.length, hiff, iszerotrim]
  rfl

theorem strTrims_gives (exp : BitVec 64) (ha : Allocates place static) (hσ : Tidy static σ) (hd : Dynamic σ d s)
    (hs : s ≠ []) : GivesExp place static σ d.aPointer (trimmed exp s).1 (trimmed exp s).2
      (strTrims place d exp σ) := by
  obtain ⟨-, -, hleft, -⟩ := lzerotrim_spec hs
  obtain ⟨-, -, -, hright, -⟩ := rzerotrim_spec hleft exp
  rw [strTrims]
  apply Ends.bind (strLzerotrim_gives ha hσ hd hs)
  rintro out ⟨-, hout⟩
  apply Ends.bind (strRzerotrim_gives exp ha hout.tidy hout.dynamic hleft)
  rintro ⟨out', exp'⟩ ⟨hout', hexp⟩
  have hout' : Leaves static out.store out.destination.aPointer (rzerotrim (lzerotrim s) exp).1 out' :=
    hout'
  have hexp : exp' = (rzerotrim (lzerotrim s) exp).2 := hexp
  simp only [hexp, strIszerotrim_eq hout'.dynamic hright, ok_bind]
  exact .ok ⟨hout.trans hout', rfl⟩

/-- Nothing to trim in front. -/
theorem lzeroLoop_stop {m : Memory} {p : Nat} (hm : bytesAt m p s.length = s)
    (h : s.length = 1 ∨ s.head? ≠ some zero) : lzeroLoop m p s.length = (m, s.length) := by
  cases s with
  | nil => rfl
  | cons c s =>
    rw [List.length_cons, bytesAt_succ] at hm
    refine if_neg fun hgo => ?_
    rcases h with hone | hhead
    · rw [List.length_cons] at hone
      omega
    · exact hhead (congrArg some ((List.cons.inj hm).1.symm.trans hgo.1))

/-- Nothing to trim behind. -/
theorem rzeroLoop_stop {m : Memory} {p : Nat} {len : BitVec 16} (hm : bytesAt m p s.length = s)
    (h : s.length = 1 ∨ s.getLast? ≠ some zero) :
    rzeroLoop m p (s.length - 1) len exp = (m, len, exp) := by
  rcases List.eq_nil_or_concat s with rfl | ⟨t, c, rfl⟩
  · rfl
  · rw [List.concat_eq_append, List.length_append, List.length_singleton] at hm ⊢
    rw [bytesAt_snoc] at hm
    have hc : m (p + t.length) = c := (List.cons.inj (List.append_inj hm (length_bytesAt _ _ _)).2).1
    rw [Nat.add_sub_cancel]
    cases hl : t.length with
    | zero => rfl
    | succ l =>
      rw [hl] at hc
      refine if_neg fun hgo => ?_
      rcases h with hone | hlast
      · simp [hl] at hone
      · apply hlast
        rw [List.concat_eq_append, List.getLast?_concat, ← hc, hgo]

theorem strGet1Dx_same (hd : Dynamic σ d s) (hs : s ≠ []) :
    strGet1Dx place d.wLength d σ = .ok ⟨Str.strNormal, d, σ⟩ := by
  simp only [strGet1Dx, hd.dynamic, pointer_ne_zero hd hs, ne_eq, not_true_eq_false, not_false_eq_true,
    if_false, if_true]
  rfl

/-- Nothing to trim at all: the string, its block and the rest of memory stay. -/
theorem strTrims_canonical (hd : Dynamic σ d s) (h : Decimal.Canonical ⟨0, exp, s⟩) :
    strTrims place d exp σ = .ok (⟨Str.strNormal, d, σ⟩, exp) := by
  obtain ⟨hs, -, hends⟩ := h
  have hs : s ≠ [] := hs
  have hhead : s.length = 1 ∨ s.head? ≠ some zero :=
    hends.imp (fun hone => congrArg List.length hone.1) fun hne => hne.1
  have hlast : s.length = 1 ∨ s.getLast? ≠ some zero :=
    hends.imp (fun hone => congrArg List.length hone.1) fun hne => hne.2
  have hexp : iszerotrim s exp = exp := by
    rw [iszerotrim]
    split_ifs with hzeros
    · rcases hends with ⟨-, hexp⟩ | ⟨hne, -⟩
      · exact hexp.symm
      · obtain ⟨c, t, rfl⟩ := List.exists_cons_of_ne_nil hs
        exact absurd (congrArg some (hzeros.2 c List.mem_cons_self)) hne
    · rfl
  have hleft : strLzerotrim place d σ = .ok ⟨Str.strNormal, d, σ⟩ := by
    simp only [strLzerotrim, hd.analyzed, ok_bind, if_neg (pointer_ne_zero hd hs), hd.length,
      lzeroLoop_stop hd.bytes hhead]
    rw [← hd.wLength_eq]
    exact strGet1Dx_same hd hs
  have hright : strRzerotrim place d exp σ = .ok (⟨Str.strNormal, d, σ⟩, exp) := by
    simp only [strRzerotrim, hd.analyzed, ok_bind, if_neg (pointer_ne_zero hd hs), hd.length,
      rzeroLoop_stop hd.bytes hlast]
    rw [strGet1Dx_same hd hs, ok_bind, hd.analyzed, ok_bind]
    rfl
  rw [strTrims, hleft, ok_bind]
  simp only [hright, ok_bind, strIszerotrim_eq hd hs, hexp]
  rfl

end

/-! ## One form for each value -/

section

variable {s s' : List Byte} {exp exp' : BitVec 64}

theorem trim_eq_trimmed (sign : Nat) (hs : s ≠ []) :
    trim sign exp s = .ok ⟨sign, (trimmed exp s).2, (trimmed exp s).1⟩ := if_neg hs

/-- A text of digits without a zero in front is told by its number. -/
theorem number_inj (hs : Digits s) (hs' : Digits s') (hhead : s.head? ≠ some zero)
    (hhead' : s'.head? ≠ some zero) (h : number s = number s') : s = s' := by
  have hdigits : ∀ s : List Byte, Digits s → s.head? ≠ some zero →
      Nat.digits 10 (number s) = s.reverse.map digitOf := by
    intro s hd hne
    rw [number_eq_ofDigits, Nat.digits_ofDigits 10 (by decide)]
    · intro l hl
      obtain ⟨c, hc, rfl⟩ := List.mem_map.mp hl
      exact digitOf_lt (hd c (List.mem_reverse.mp hc))
    · intro hnil hzero
      cases s with
      | nil => exact hnil rfl
      | cons c t =>
        have hlast : ((c :: t).reverse.map digitOf).getLast hnil = digitOf c := by simp
        apply hne
        rw [List.head?_cons, ← digitChr_digitOf (hd c List.mem_cons_self), ← hlast, hzero]
        rfl
  have hback : ∀ s : List Byte, Digits s → (s.reverse.map digitOf).map digitChr = s.reverse := by
    intro s hd
    rw [List.map_map]
    exact (List.map_congr_left fun c hc =>
      digitChr_digitOf (hd c (List.mem_reverse.mp hc))).trans (List.map_id _)
  rw [← List.reverse_inj, ← hback s hs, ← hback s' hs', ← hdigits s hs hhead,
    ← hdigits s' hs' hhead', h]

/-- What the trims leave, by the value. -/
theorem trimmed_cases (exp : BitVec 64) (hs : s ≠ []) (hd : Digits s) :
    (number s = 0 ∧ trimmed exp s = ([zero], 0)) ∨
      ∃ (r : List Byte) (trail : Nat), Digits r ∧ r.head? ≠ some zero ∧ ¬ (10 : Int) ∣ number r ∧
        scaled 10 (number s) exp.toInt = scaled 10 (number r) (exp.toInt + trail) ∧
        trimmed exp s = (r, BitVec.ofInt 64 (exp.toInt + trail)) := by
  obtain ⟨r, lead, trail, hsplit, hcases⟩ := trim_spec 0 exp hs
  have hnumber : number s = number r * 10 ^ trail := by rw [hsplit, number_padded]
  have hdr : Digits r := by rwa [hsplit, digits_padded] at hd
  rcases hcases with ⟨rfl, htrim⟩ | ⟨hne, hhead, hlast, htrim⟩
  · left
    rw [trim_eq_trimmed 0 hs, Except.ok.injEq, Decimal.mk.injEq] at htrim
    exact ⟨by rw [hnumber]; exact Nat.zero_mul _, Prod.ext htrim.2.2 htrim.2.1⟩
  · right
    rw [trim_eq_trimmed 0 hs, Except.ok.injEq, Decimal.mk.injEq] at htrim
    refine ⟨r, trail, hdr, hhead, not_dvd_number hdr hne hlast, ?_, Prod.ext htrim.2.2 ?_⟩
    · rw [hnumber, ← scaled_shift (by decide)]
      push_cast
      rfl
    · refine htrim.2.1.trans ?_
      rw [BitVec.ofInt_add, BitVec.ofInt_toInt, BitVec.ofInt_natCast]

/-- Equal values get equal digits and exponents. -/
theorem trimmed_eq_of_value (hs : s ≠ []) (hs' : s' ≠ []) (hd : Digits s) (hd' : Digits s')
    (h : scaled 10 (number s) exp.toInt = scaled 10 (number s') exp'.toInt) :
    trimmed exp s = trimmed exp' s' := by
  have hzero : ∀ (n : Nat) (k : Int) (r : List Byte) (j : Int), n = 0 → ¬ (10 : Int) ∣ number r →
      scaled 10 n k ≠ scaled 10 (number r) j := by
    rintro n k r j rfl hdvd heq
    rw [Nat.cast_zero, scaled_zero, eq_comm, scaled_eq_zero_iff (by decide)] at heq
    exact hdvd (heq ▸ dvd_zero 10)
  rcases trimmed_cases exp hs hd with
    ⟨hn, heq⟩ | ⟨r, trail, hdr, hhead, hdvd, hvalue, heq⟩
  · rcases trimmed_cases exp' hs' hd' with
      ⟨-, heq'⟩ | ⟨r', trail', -, -, hdvd', hvalue', -⟩
    · rw [heq, heq']
    · exact absurd (h.trans hvalue') (hzero _ _ _ _ hn hdvd')
  · rcases trimmed_cases exp' hs' hd' with
      ⟨hn', -⟩ | ⟨r', trail', hdr', hhead', hdvd', hvalue', heq'⟩
    · exact absurd (h.symm.trans hvalue) (hzero _ _ _ _ hn' hdvd)
    · obtain ⟨hnumber, hexp⟩ := scaled_inj (by decide) hdvd hdvd' (hvalue.symm.trans (h.trans hvalue'))
      rw [heq, heq', hexp, number_inj hdr hdr' hhead hhead' (Int.ofNat.inj hnumber)]

theorem trimmed_exact (exp : BitVec 64) (hs : s ≠ []) (hd : Digits s) :
    Decimal.Canonical ⟨0, (trimmed exp s).2, (trimmed exp s).1⟩ ∧
      (scaled 10 (number (trimmed exp s).1) (trimmed exp s).2.toInt =
          scaled 10 (number s) exp.toInt ↔ Fits (scaled 10 (number s) exp.toInt)) := by
  obtain ⟨d, htrim, -, hcanonical, hvalue⟩ := trim_exact 0 (BitVec.ofInt_toInt).symm hs hd
  rw [trim_eq_trimmed 0 hs] at htrim
  cases htrim
  simp only [Decimal.value, signed_zero_left] at hvalue
  exact ⟨hcanonical, hvalue⟩

end

/-! ## The normal form -/

/-- The trims of `s` with the exponent `exp` leave a string and an exponent in canonical form, of the
    same value if and only if the exponent of that form fits; another application changes nothing, and
    any string of the same value is left with the same digits and exponent. -/
structure Normal (place : Store → Nat → Nat) (static : Nat → Prop) (σ : Store) (q : Nat)
    (s : List Byte) (exp : BitVec 64) (r : Outcome × BitVec 64) (digits : List Byte) : Prop where
  leaves : Leaves static σ q digits r.1
  canonical : Decimal.Canonical ⟨0, r.2, digits⟩
  value : scaled 10 (number digits) r.2.toInt = scaled 10 (number s) exp.toInt ↔
    Fits (scaled 10 (number s) exp.toInt)
  again : strTrims place r.1.destination r.2 r.1.store =
    .ok (⟨Str.strNormal, r.1.destination, r.1.store⟩, r.2)
  unique : ∀ (σ' : Store) (d' : Descriptor) (s' : List Byte) (exp' : BitVec 64), Tidy static σ' →
    Dynamic σ' d' s' → s' ≠ [] → Digits s' →
      scaled 10 (number s') exp'.toInt = scaled 10 (number s) exp.toInt →
        GivesExp place static σ' d'.aPointer digits r.2 (strTrims place d' exp' σ')

theorem trims_normal {place : Store → Nat → Nat} {static : Nat → Prop} {σ : Store} {d : Descriptor}
    {s : List Byte} (exp : BitVec 64) (ha : Allocates place static) (hσ : Tidy static σ)
    (hd : Dynamic σ d s) (hs : s ≠ []) (hdigits : Digits s) :
    Ends (OutOfMemory place) (fun r => ∃ digits, Normal place static σ d.aPointer s exp r digits)
      (strTrims place d exp σ) := by
  obtain ⟨hcanonical, hvalue⟩ := trimmed_exact exp hs hdigits
  refine Ends.mono (strTrims_gives exp ha hσ hd hs) ?_
  rintro ⟨out, exp'⟩ ⟨hleaves, hexp⟩
  obtain rfl : exp' = (trimmed exp s).2 := hexp
  refine ⟨_, hleaves, hcanonical, hvalue, strTrims_canonical hleaves.dynamic hcanonical, ?_⟩
  intro σ' d' s' exp' hσ' hd' hs' hdigits' heq
  rw [← trimmed_eq_of_value hs' hs hdigits' hdigits heq]
  exact strTrims_gives exp' ha hσ' hd' hs'

/-- `10` in a block at 10000. -/
def tenStore : Store := ⟨fun a => if a = 10000 then 49 else 48, [⟨10000, 2⟩]⟩

def tenString : Descriptor := ⟨2, .d, 10000⟩

theorem tenStore_tidy : Tidy (· < 10000) tenStore := by
  constructor
  · simp [tenStore]
  · simp [tenStore]
  · intro b hb a ha
    rw [List.mem_singleton.mp hb] at ha
    exact Nat.not_lt.mpr ha.1

theorem tenStore_dynamic : Dynamic tenStore tenString [49, 48] :=
  ⟨rfl, rfl, rfl, Or.inr ⟨by decide, 2, List.mem_singleton.mpr rfl, Nat.le_refl _⟩⟩

theorem ten_normal : Ends (OutOfMemory (above 10000))
    (fun r => ∃ digits, Normal (above 10000) (· < 10000) tenStore 10000 [49, 48] 0 r digits)
    (strTrims (above 10000) tenString 0 tenStore) :=
  trims_normal 0 (above_allocates 10000) tenStore_tidy tenStore_dynamic (List.cons_ne_nil _ _)
    (by decide)

/-- With the largest exponent there is, the exponent of `10` wraps. -/
theorem ten_wraps : ¬ ∃ r digits,
    strTrims (above 10000) tenString (BitVec.intMax 64) tenStore = .ok r ∧
      Dynamic r.1.store r.1.destination digits ∧
      scaled 10 (number digits) r.2.toInt = scaled 10 (number [49, 48]) (BitVec.intMax 64).toInt := by
  rintro ⟨r, digits, hrun, hdynamic, hvalue⟩
  have hgives := strTrims_gives (BitVec.intMax 64) (above_allocates 10000) tenStore_tidy
    tenStore_dynamic (List.cons_ne_nil _ _)
  rw [hrun] at hgives
  obtain ⟨hleaves, hexp⟩ : Leaves (· < 10000) tenStore tenString.aPointer
      (trimmed (BitVec.intMax 64) [49, 48]).1 r.1 ∧ r.2 = (trimmed (BitVec.intMax 64) [49, 48]).2 := by
    cases hgives with
    | ok h => exact h
  have htrimmed : trimmed (BitVec.intMax 64) [49, 48] = ([49], BitVec.intMin 64) := rfl
  rw [htrimmed] at hleaves hexp
  rw [hdynamic.unique hleaves.dynamic, hexp] at hvalue
  have hleft : scaled 10 (number [49]) (BitVec.intMin 64).toInt =
      scaled 10 1 (-9223372036854775808) := rfl
  have hright : scaled 10 (number [49, 48]) (BitVec.intMax 64).toInt =
      scaled 10 1 9223372036854775808 := scaled_shift (by decide) 1 9223372036854775807 1
  rw [hleft, hright, scaled_right_inj (by decide) (by decide)] at hvalue
  exact absurd hvalue (by decide)

end FreeVMS.Rtl.Num
