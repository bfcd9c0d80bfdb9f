import FreeVMS.Rtl.SprintField
import FreeVMS.Rtl.SprintNumber

/-!
# Integer fields

A specification of an integer, read from the format and printed, against the field that it asks for.
-/

namespace FreeVMS.Rtl.Sprint

/-! ### The number in a field -/

theorem ofDigits_digitsOf (base v : Nat) : Nat.ofDigits base (digitsOf base v) = v := by
  rw [digitsOf]
  split
  · rename_i hv
    rw [hv]
    rfl
  · exact Nat.ofDigits_digits base v

theorem digitsOf_lt {base : Nat} (hb : 2 ≤ base) {v d : Nat} (hd : d ∈ digitsOf base v) :
    d < base := by
  rw [digitsOf] at hd
  split at hd
  · rw [List.mem_singleton] at hd
    omega
  · exact Nat.digits_lt_base (by omega) hd

/-- The digits are known by their place. -/
theorem IntConv.digits_idxOf (n : IntConv) :
    ∀ d < n.base, n.digits.getD d 0 ∈ n.digits ∧ n.digits.idxOf (n.digits.getD d 0) = d := by
  cases n <;> decide

theorem numberIn_digitText (n : IntConv) (v : Nat) :
    numberIn n.digits n.base (digitText n.digits n.base v) = v := by
  have hplace (d : Nat) (hd : d ∈ digitsOf n.base v) :=
    n.digits_idxOf d (digitsOf_lt n.two_le_base hd)
  have hall : (digitText n.digits n.base v).filter n.digits.contains = digitText n.digits n.base v := by
    rw [List.filter_eq_self]
    intro c hc
    obtain ⟨d, hd, rfl⟩ := List.mem_map.mp (List.mem_reverse.mp hc)
    exact List.contains_iff_mem.mpr (hplace d hd).1
  rw [numberIn, hall, digitText, List.foldl_reverse, digitChars, List.foldr_map]
  have hfold (ds : List Nat) (hds : ∀ d ∈ ds, n.digits.idxOf (n.digits.getD d 0) = d) :
      ds.foldr (fun d v => v * n.base + n.digits.idxOf (n.digits.getD d 0)) 0 =
        Nat.ofDigits n.base ds := by
    induction ds with
    | nil => rfl
    | cons d ds ih =>
      rw [List.foldr_cons, ih fun c hc => hds c (List.mem_cons_of_mem _ hc),
        hds d List.mem_cons_self, Nat.ofDigits_cons, Nat.mul_comm, Nat.add_comm]
  rw [hfold _ fun d hd => (hplace d hd).2, ofDigits_digitsOf]

/-- What is no digit does not count, and neither do zeros in front. -/
theorem numberIn_around (n : IntConv) {l r : List Byte} (z : Nat) (t : List Byte)
    (hl : ∀ c ∈ l, c ∉ n.digits) (hr : ∀ c ∈ r, c ∉ n.digits) :
    numberIn n.digits n.base (l ++ (List.replicate z (chr '0') ++ (t ++ r))) =
      numberIn n.digits n.base t := by
  have hnone (u : List Byte) (hu : ∀ c ∈ u, c ∉ n.digits) : u.filter n.digits.contains = [] := by
    rw [List.filter_eq_nil_iff]
    intro c hc
    simpa using hu c hc
  have hzero : chr '0' ∈ n.digits ∧ n.digits.idxOf (chr '0') = 0 := by
    cases n <;> decide
  have hzeros : (List.replicate z (chr '0')).filter n.digits.contains = List.replicate z (chr '0') := by
    rw [List.filter_replicate, if_pos (List.contains_iff_mem.mpr hzero.1)]
  have hfold : (List.replicate z (chr '0')).foldl
      (fun v c => v * n.base + n.digits.idxOf c) 0 = 0 := by
    induction z with
    | zero => rfl
    | succ z ih =>
      rw [List.replicate_succ, List.foldl_cons, hzero.2, Nat.zero_mul]
      refine ih ?_
      rw [List.filter_replicate, if_pos (List.contains_iff_mem.mpr hzero.1)]
  rw [numberIn, numberIn, List.filter_append, List.filter_append, List.filter_append, hnone l hl,
    hnone r hr, hzeros, List.nil_append, List.append_nil, List.foldl_append, hfold]

/-- The digits of a field denote its value. -/
theorem numberIn_shape {n : IntConv} {s t : List Byte} (hs : ∀ c ∈ s, c ∉ n.digits) (g : Flags) (v : Nat)
    (ht : ∃ i z j, t = (List.replicate i (chr ' ') ++ (s ++ prefixText g n.base)) ++
      (List.replicate z (chr '0') ++ (digitText n.digits n.base v ++ List.replicate j (chr ' ')))) :
    numberIn n.digits n.base t = v := by
  have hblanks (k : Nat) : ∀ c ∈ List.replicate k (chr ' '), c ∉ n.digits := by
    intro c hc
    rw [List.eq_of_mem_replicate hc]
    cases n <;> decide
  have hprefix : ∀ c ∈ prefixText g n.base, c ∉ n.digits := by
    have hall : ∀ c ∈ prefixOf n.base, c ∉ n.digits := by
      cases n <;> decide
    intro c hc
    rw [prefixText] at hc
    split at hc
    · exact hall c hc
    · exact absurd hc List.not_mem_nil
  obtain ⟨i, z, j, rfl⟩ := ht
  rw [numberIn_around n z _ ?_ (hblanks j), numberIn_digitText]
  intro c hc
  rcases List.mem_append.mp hc with hc | hc
  · exact hblanks i c hc
  · rcases List.mem_append.mp hc with hc | hc
    · exact hs c hc
    · exact hprefix c hc

/-! ### Widths and precisions -/

def Count.value (arg : Nat → Arg) (k : Nat) : Count → Int
  | .absent => -1
  | .star => (arg k).int.toInt
  | .decimal ds => number ds

/-- The argument behind those that are taken. -/
def Count.next (k : Nat) : Count → Nat
  | .star => k + 1
  | _ => k

theorem Count.le_value (arg : Nat → Arg) (k : Nat) {n : Count} (h : n ≠ .star) : -1 ≤ n.value arg k := by
  cases n with
  | absent => exact Int.le_refl _
  | star => exact absurd rfl h
  | decimal ds =>
    have hnonneg : (0 : Int) ≤ number ds := Int.natCast_nonneg _
    rw [Count.value]
    omega

/-- A part that is undefined from the argument `a` on. -/
def Undefined {α : Type} (a : Nat) (m : Print α) : Prop :=
  ∀ o : Out, o.argPtr = a → m o = .error .undefined

section

variable {α β : Type} {a b : Nat} {v : α} {m : Print α} {f : α → Print β}

theorem undefined_of_eq (h : m = halt .undefined) (a : Nat) : Undefined a m := by
  rintro o _
  rw [h]
  rfl

theorem Undefined.bind (h : Undefined a m) (f : α → Print β) : Undefined a (m >>= f) := by
  intro o ha
  show (m o >>= fun r => f r.1 r.2) = _
  rw [h o ha]
  rfl

theorem Prints.bind_undefined (h : Prints a [] v b m) (hf : Undefined b (f v)) :
    Undefined a (m >>= f) := by
  intro o ha
  show (m o >>= fun r => f r.1 r.2) = _
  rw [h o ha (Nat.zero_le _)]
  exact hf _ rfl

end

section

variable {e : Env} {fuel : Nat}

/-- A number that starts with `num`. -/
theorem le_fold (ds : List Byte) (num : Nat) :
    num ≤ ds.foldl (fun n c => n * 10 + digitOf c) num := by
  induction ds generalizing num with
  | nil => exact Nat.le_refl num
  | cons c ds ih =>
    have hrest := ih (num * 10 + digitOf c)
    rw [List.foldl_cons]
    omega

theorem digit_eq {c : Byte} (h : IsDigit c) : (c.toNat : Int) - 48 = digitOf c := by
  unfold IsDigit at h
  unfold digitOf
  omega

theorem digitsValue_eq {ds : List Byte} (hds : Digits ds) (hfuel : ds.length < fuel) (num : Nat)
    (h : ds.foldl (fun n c => n * 10 + digitOf c) num < 2 ^ 31) :
    digitsValue e fuel num ds =
      pure (ds.foldl (fun n c => n * 10 + digitOf c) num : Nat) := by
  induction ds generalizing fuel num with
  | nil =>
    cases fuel with
    | zero => exact absurd hfuel (Nat.lt_irrefl 0)
    | succ fuel => rfl
  | cons c ds ih =>
    cases fuel with
    | zero => exact absurd hfuel (Nat.not_lt_zero _)
    | succ fuel =>
      obtain ⟨hc, hds⟩ := digits_cons.mp hds
      rw [List.foldl_cons] at h ⊢
      have hle := le_fold ds (num * 10 + digitOf c)
      rw [digitsValue, int_eq e (by omega), pure_bind, digit_eq hc, int_eq e (by omega), pure_bind,
        ← ih hds (Nat.lt_of_succ_lt_succ hfuel) _ h]
      congr 1

theorem digitsValue_undefined (he : ∀ x, e.overflow.int x = none) {ds : List Byte} (hds : Digits ds)
    (hfuel : ds.length < fuel) {num : Nat} (hnum : num < 2 ^ 31)
    (h : 2 ^ 31 ≤ ds.foldl (fun n c => n * 10 + digitOf c) num) :
    digitsValue e fuel num ds = halt .undefined := by
  induction ds generalizing fuel num with
  | nil => exact absurd h (Nat.not_le.mpr hnum)
  | cons c ds ih =>
    cases fuel with
    | zero => exact absurd hfuel (Nat.not_lt_zero _)
    | succ fuel =>
      obtain ⟨hc, hds⟩ := digits_cons.mp hds
      rw [List.foldl_cons] at h
      rw [digitsValue]
      by_cases hten : num * 10 < 2 ^ 31
      · rw [int_eq e (by omega), pure_bind, digit_eq hc]
        by_cases hone : num * 10 + digitOf c < 2 ^ 31
        · rw [int_eq e (by omega), pure_bind, ← ih hds (Nat.lt_of_succ_lt_succ hfuel) hone h]
          congr 1
        · rw [int_undefined e (he _) (by omega)]
          rfl
      · rw [int_undefined e (he _) (by omega)]
        rfl

variable {n : Count} (hn : n.IsNumeral) (hfuel : n.digits.length < fuel) (k : Nat)

include hn hfuel

theorem eval_prints (h : n.value e.arg k < 2 ^ 31) :
    Prints k [] (n.value e.arg k) (n.next k) (n.eval e fuel) := by
  cases n with
  | absent => exact .pure _ k
  | star => exact (nextArg_prints e k).bind (.pure _ _)
  | decimal ds =>
    have hlt : number ds < 2 ^ 31 := by
      rw [Count.value] at h
      omega
    have hvalue : digitsValue e fuel 0 ds = pure (number ds : Int) :=
      digitsValue_eq hn.2 hfuel 0 hlt
    rw [Count.eval, hvalue]
    exact .pure _ k

theorem eval_undefined (he : ∀ x, e.overflow.int x = none) (h : 2 ^ 31 ≤ n.value e.arg k) :
    Undefined k (n.eval e fuel) := by
  cases n with
  | absent =>
    rw [Count.value] at h
    omega
  | star =>
    have hlt : (e.arg k).int.toInt < 2 ^ 31 := BitVec.toInt_lt
    exact absurd h (Int.not_le.mpr hlt)
  | decimal ds =>
    have hle : 2 ^ 31 ≤ number ds := by
      rw [Count.value] at h
      omega
    refine undefined_of_eq ?_ k
    exact digitsValue_undefined he hn.2 hfuel (by decide) hle

end

end FreeVMS.Rtl.Sprint
