import FreeVMS.Rtl.SprintText
import Mathlib.Data.Nat.Digits.Lemmas

/-!
# What is printed where there is room

`Prints` says of a part of the code that it prints a text and returns a value, wherever the output
stands, as long as there is room for the text.
-/

namespace FreeVMS.Rtl.Sprint

/-! ### The output -/

/-- The text is stored in front of `p`. -/
def Out.print (t : List Byte) (o : Out) : Out := t.foldl (fun o ch => o.store o.p ch) o

def Out.setArg (a : Nat) (o : Out) : Out := { o with argPtr := a }

variable {o : Out} {t u : List Byte}

@[simp] theorem Out.print_nil : o.print [] = o := rfl

theorem Out.print_append : o.print (t ++ u) = (o.print t).print u := List.foldl_append

theorem Out.print_size : (o.print t).size = o.size - t.length := by
  induction t generalizing o with
  | nil => rfl
  | cons ch t ih =>
    show ((o.store o.p ch).print t).size = _
    rw [ih, List.length_cons]
    show o.size - 1 - t.length = _
    omega

theorem Out.print_setArg (a : Nat) : (o.setArg a).print t = (o.print t).setArg a := by
  induction t generalizing o with
  | nil => rfl
  | cons ch t ih => exact ih (o := o.store o.p ch)

/-- The text can be read off from what was stored. -/
theorem Out.print_written : (o.print t).written.map Write.ch = o.written.map Write.ch ++ t := by
  induction t generalizing o with
  | nil => exact (List.append_nil _).symm
  | cons ch t ih =>
    have hrest := ih (o := o.store o.p ch)
    have hone : (o.store o.p ch).written.map Write.ch = o.written.map Write.ch ++ [ch] := by
      simp [Out.store]
    rw [hone, List.append_assoc] at hrest
    exact hrest

@[simp] theorem Out.setArg_setArg (a b : Nat) : (o.setArg a).setArg b = o.setArg b := rfl

@[simp] theorem Out.setArg_size (a : Nat) : (o.setArg a).size = o.size := rfl

/-- From the argument `a` on, `m` prints `t`, returns `v` and leaves off at the argument `b`. -/
def Prints {α : Type} (a : Nat) (t : List Byte) (v : α) (b : Nat) (m : Print α) : Prop :=
  ∀ o : Out, o.argPtr = a → t.length ≤ o.size → m o = .ok (v, (o.print t).setArg b)

section

variable {α β : Type} {a b d : Nat} {v : α} {w : β} {m : Print α} {f : α → Print β}

theorem Prints.pure (v : α) (a : Nat) : Prints a [] v a (pure v : Print α) := by
  rintro o rfl _
  rfl

theorem Prints.bind (h : Prints a t v b m) (hf : Prints b u w d (f v)) :
    Prints a (t ++ u) w d (m >>= f) := by
  intro o ha hsize
  rw [List.length_append] at hsize
  show (m o >>= fun r => f r.1 r.2) = _
  rw [h o ha (by omega)]
  show f v ((o.print t).setArg b) = _
  rw [hf _ rfl (by rw [Out.setArg_size, Out.print_size]; omega), Out.print_setArg, Out.setArg_setArg,
    Out.print_append]

theorem Prints.seq {m : Print Unit} {m' : Print β} (h : Prints a t () b m)
    (h' : Prints b u w d m') : Prints a (t ++ u) w d (m >>= fun _ => m') :=
  h.bind (f := fun _ => m') h'

theorem putch_prints (ch : Byte) (a : Nat) : Prints a [ch] () a (putch ch) := by
  rintro o rfl hsize
  have hne : o.size ≠ 0 := by
    rw [List.length_singleton] at hsize
    omega
  rw [putch, if_neg hne]
  rfl

theorem putstr_prints (t : List Byte) (a : Nat) : Prints a t () a (putstr t) := by
  induction t with
  | nil => exact .pure () a
  | cons ch t ih => exact (putch_prints ch a).bind ih

theorem pad_prints (ch : Byte) (n a : Nat) : Prints a (List.replicate n ch) () a (pad ch n) := by
  induction n with
  | zero => exact .pure () a
  | succ n ih => exact (putch_prints ch a).bind ih

theorem nextArg_prints (e : Env) (a : Nat) : Prints a [] (e.arg a) (a + 1) (nextArg e) := by
  rintro o rfl _
  rfl

end

/-! ### Digits -/

/-- The digits of a number, the lowest first; that of zero is a zero. -/
def digitsOf (base n : Nat) : List Nat := if n = 0 then [0] else Nat.digits base n

/-- The characters of these digits. -/
def digitChars (digits : List Byte) (base n : Nat) : List Byte :=
  (digitsOf base n).map fun d => digits.getD d 0

theorem digitsOf_of_lt {base n : Nat} (hb : 2 ≤ base) (h : n / base = 0) :
    digitsOf base n = [n % base] := by
  have hlt : n < base := (Nat.div_eq_zero_iff.mp h).resolve_left (by omega)
  rw [digitsOf, Nat.mod_eq_of_lt hlt]
  split
  · rename_i hn
    rw [hn]
  · exact Nat.digits_of_lt base n (by assumption) hlt

theorem digitsOf_of_ge {base n : Nat} (hb : 2 ≤ base) (h : n / base ≠ 0) :
    digitsOf base n = n % base :: digitsOf base (n / base) := by
  have hn : n ≠ 0 := by
    rintro rfl
    exact h (Nat.zero_div base)
  rw [digitsOf, if_neg hn, digitsOf, if_neg h]
  exact Nat.digits_def' (by omega) (Nat.pos_of_ne_zero hn)

/-- `convert` has room for the digits of every number. -/
theorem convert_eq (digits : List Byte) {base : Nat} (hb : 2 ≤ base) {k uval : Nat} (hk : 0 < k)
    (h : uval < 2 ^ k) : convert digits base k uval = pure (digitChars digits base uval) := by
  induction k generalizing uval with
  | zero => exact absurd hk (by decide)
  | succ k ih =>
    rw [convert]
    by_cases hmore : uval / base > 0
    · have hlt : uval / base < 2 ^ k := by
        rw [pow_succ] at h
        calc uval / base ≤ uval / 2 := Nat.div_le_div_left hb (by decide)
          _ < 2 ^ k := by omega
      have hpos : 0 < k := by
        rcases Nat.eq_zero_or_pos k with rfl | hpos
        · omega
        · exact hpos
      rw [if_pos hmore, ih hpos hlt, pure_bind, digitChars, digitChars,
        digitsOf_of_ge hb (Nat.ne_of_gt hmore), List.map_cons]
    · rw [if_neg hmore, digitChars, digitsOf_of_lt hb (Nat.eq_zero_of_not_pos hmore),
        List.map_singleton]

theorem convert_bits (digits : List Byte) {base : Nat} (hb : 2 ≤ base) {uval : Nat}
    (h : uval < 2 ^ 64) :
    convert digits base convertSize uval = pure (digitChars digits base uval) :=
  convert_eq digits hb (by decide) (Nat.lt_trans h (by decide))

theorem digitsOf_ne_nil (base n : Nat) : digitsOf base n ≠ [] := by
  rw [digitsOf]
  split
  · exact List.cons_ne_nil _ _
  · exact Nat.digits_ne_nil_iff_ne_zero.mpr (by assumption)

/-- At most as many digits as bits. -/
theorem length_digitsOf_le {base n : Nat} (hb : 2 ≤ base) (h : n < 2 ^ 64) :
    (digitsOf base n).length ≤ 64 := by
  rw [digitsOf]
  split
  · decide
  · rw [Nat.digits_length_le_iff (by omega)]
    exact Nat.lt_of_lt_of_le h (Nat.pow_le_pow_left hb 64)

theorem length_digitChars (digits : List Byte) (base n : Nat) :
    (digitChars digits base n).length = (digitsOf base n).length := List.length_map _

end FreeVMS.Rtl.Sprint
