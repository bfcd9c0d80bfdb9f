import FreeVMS.Rtl.DecimalSum
import Mathlib.Algebra.BigOperators.Ring.Finset
import Mathlib.Algebra.BigOperators.Group.Finset.Basic

/-!
# Borrowing between columns

The two loops of `str$sub` over the cells of the working storage. In the order `NORM` a borrow goes
through zeros to the next cell that can give, in the order `REV` it takes one from the next cell
whatever is there. A cell where nothing was stored is a NUL: it counts as zero, and borrows.
-/

namespace FreeVMS.Rtl.Num

open Lib.Digits

/-! ### Cells -/

/-- A digit, or a NUL where nothing was stored. -/
def Cell (c : Byte) : Prop := c = 0 ∨ IsDigit c

instance (c : Byte) : Decidable (Cell c) := inferInstanceAs (Decidable (_ ∨ _))

def AllCells (cs : List Byte) : Prop := ∀ c ∈ cs, Cell c

theorem allCells_cons {c : Byte} {cs : List Byte} : AllCells (c :: cs) ↔ Cell c ∧ AllCells cs :=
  List.forall_mem_cons

theorem allCells_of_digits {cs : List Byte} (h : Digits cs) : AllCells cs := fun c hc => Or.inr (h c hc)

theorem digitSum_range {c : Byte} (h : Cell c) : 0 ≤ digitSum c ∧ digitSum c ≤ 9 := by
  have hall : ∀ c, Cell c → 0 ≤ digitSum c ∧ digitSum c ≤ 9 := by decide
  exact hall c h

/-- A digit as a signed character. -/
theorem toInt_digit {c : Byte} (h : IsDigit c) : c.toInt = digitSum c + 48 := by
  have hall : ∀ c, IsDigit c → c.toInt = digitSum c + 48 := by decide
  exact hall c h

theorem offset_digit {c : Byte} (h : IsDigit c) : offset c = digitSum c := by
  rw [offset, toInt_digit h]
  omega

theorem not_isDigit_nul : ¬ IsDigit 0 := by decide

theorem digitSum_eq_zero_iff {c : Byte} (h : IsDigit c) : digitSum c = 0 ↔ c = zero := by
  have hall : ∀ c, IsDigit c → (digitSum c = 0 ↔ c = zero) := by decide
  exact hall c h

/-- A digit is larger than a cell: than a smaller digit, and than a NUL in any case. -/
theorem slt_digit_iff {x y : Byte} (hx : Cell x) (hy : IsDigit y) :
    x.slt y = true ↔ x = 0 ∨ digitSum x < digitSum y := by
  have hyi := toInt_digit hy
  have hyr := digitSum_range (Or.inr hy)
  rw [BitVec.slt_eq_decide, decide_eq_true_eq]
  rcases hx with rfl | hx
  · have hnul : (0 : Byte).toInt = 0 := by decide
    simp only [hnul, hyi, true_or, iff_true]
    omega
  · have hne : x ≠ 0 := fun h => not_isDigit_nul (h ▸ hx)
    rw [toInt_digit hx, hyi]
    simp only [hne, false_or]
    omega

theorem total_nonneg {cs : List Byte} (h : AllCells cs) : 0 ≤ total cs := by
  induction cs with
  | nil => exact Int.le_refl 0
  | cons c cs ih =>
    obtain ⟨hc, hcs⟩ := allCells_cons.mp h
    have hrange := digitSum_range hc
    have hrest := ih hcs
    rw [total_cons]
    omega

theorem allCells_take {cs : List Byte} (h : AllCells cs) (p : Nat) : AllCells (cs.take p) :=
  fun c hc => h c (List.mem_of_mem_take hc)

theorem total_split (cs : List Byte) (p : Nat) (hp : p ≤ cs.length) :
    total cs = total (cs.take p) + 10 ^ p * total (cs.drop p) := by
  conv_lhs => rw [← List.take_append_drop p cs]
  rw [total_append, List.length_take, Nat.min_eq_left hp]

/-- A NUL counts for nothing. -/
theorem total_take_hole {xs : List Byte} {p : Nat} (h : xs[p]? = some 0) :
    total (xs.take (p + 1)) = total (xs.take p) := by
  have hnul : total (some (0 : Byte)).toList = 0 := by decide
  rw [List.take_add_one, h, total_append, hnul, mul_zero, add_zero]

theorem total_nines (n : Nat) : total (List.replicate n 57) = 10 ^ n - 1 := by
  induction n with
  | zero => rfl
  | succ n ih =>
    have hnine : digitSum 57 = 9 := by decide
    rw [List.replicate_succ, total_cons, hnine, ih, pow_succ]
    ring

/-- The lower `p` columns and a debt ask for more than there is. -/
def Owes (debt : Int) (xs ys : List Byte) (p : Nat) : Prop :=
  total (xs.take p) < total (ys.take p) + debt

instance (debt : Int) (xs ys : List Byte) (p : Nat) : Decidable (Owes debt xs ys p) :=
  inferInstanceAs (Decidable (_ < _))

/-- A column passes on whether it owes. -/
theorem owes_cons {debt : Int} {x y : Byte} {xs ys : List Byte} (hx : Cell x) (hy : Cell y)
    (hdebt : 0 ≤ debt ∧ debt ≤ 1) (p : Nat) : Owes debt (x :: xs) (y :: ys) (p + 1) ↔
      Owes (if digitSum x < digitSum y + debt then 1 else 0) xs ys p := by
  have hxr := digitSum_range hx
  have hyr := digitSum_range hy
  simp only [Owes, List.take_succ_cons, total_cons]
  split <;> omega

/-! ### The order `NORM` -/

/-- The columns that come out right: nothing is stored in the subtrahend but digits, it is not the
    larger one, and where the minuend has a NUL the columns up to there have to borrow. -/
structure NormHolds (xs ys : List Byte) : Prop where
  digits : Digits ys
  length : ys.length ≤ xs.length
  le : total ys ≤ total xs
  holes : ∀ p, p < ys.length → xs[p]? = some 0 → Owes 0 xs ys (p + 1)

/-- A cell gives: one is taken, and every NUL on the way becomes a digit. -/
theorem borrow_found {xs : List Byte} (hx : AllCells xs) (h : (borrow xs).1 = true) :
    AllCells (borrow xs).2 ∧ (borrow xs).2.length = xs.length ∧
      total (borrow xs).2 = total xs - 1 ∧
      (∀ p, (borrow xs).2[p]? = some 0 ↔ xs[p]? = some 0 ∧ 0 < total (xs.take p)) ∧
      ∀ p, 0 < total (xs.take p) → total ((borrow xs).2.take p) = total (xs.take p) - 1 := by
  induction xs with
  | nil => cases h
  | cons c cs ih =>
    obtain ⟨hc, hcs⟩ := allCells_cons.mp hx
    by_cases hgive : zero.slt c = true
    · have hdown : ∀ c, Cell c → zero.slt c = true →
          Cell (c - 1) ∧ digitSum (c - 1) = digitSum c - 1 ∧ c - 1 ≠ 0 ∧ c ≠ 0 := by decide
      obtain ⟨hcell, hvalue, hne, hne'⟩ := hdown c hc hgive
      rw [borrow, if_pos hgive]
      refine ⟨allCells_cons.mpr ⟨hcell, hcs⟩, rfl, ?_, ?_, ?_⟩
      · rw [total_cons, total_cons, hvalue]
        ring
      · intro p
        cases p with
        | zero =>
          exact iff_of_false (fun h => hne (Option.some.inj h)) (fun h => hne' (Option.some.inj h.1))
        | succ p =>
          have hpos : 0 < total ((c :: cs).take (p + 1)) := by
            have hrange := digitSum_range hcell
            have hrest := total_nonneg (allCells_take hcs p)
            rw [List.take_succ_cons, total_cons]
            omega
          simp only [List.getElem?_cons_succ, hpos, and_true]
      · intro p hp
        cases p with
        | zero => exact absurd hp (lt_irrefl 0)
        | succ p =>
          rw [List.take_succ_cons, List.take_succ_cons, total_cons, total_cons, hvalue]
          ring
    · have hnone : ∀ c, Cell c → ¬ zero.slt c = true → digitSum c = 0 := by decide
      have hzero := hnone c hc hgive
      have hnine : digitSum 57 = 9 := by decide
      rw [borrow, if_neg hgive] at h ⊢
      obtain ⟨hcells, hlen, htotal, hholes, htakes⟩ := ih hcs h
      refine ⟨allCells_cons.mpr ⟨by decide, hcells⟩, by simpa using hlen, ?_, ?_, ?_⟩
      · rw [total_cons, total_cons, hnine, hzero, htotal]
        ring
      · intro p
        cases p with
        | zero => simp
        | succ p =>
          rw [List.getElem?_cons_succ, List.getElem?_cons_succ, hholes, List.take_succ_cons,
            total_cons, hzero]
          have hscale : 0 < 0 + 10 * total (cs.take p) ↔ 0 < total (cs.take p) := by omega
          rw [hscale]
      · intro p hp
        cases p with
        | zero => exact absurd hp (lt_irrefl 0)
        | succ p =>
          rw [List.take_succ_cons, total_cons, hzero] at hp
          rw [List.take_succ_cons, List.take_succ_cons, total_cons, total_cons, hnine, hzero,
            htakes p (by omega)]
          ring

/-- No cell gives: all are zero, and nines are left. -/
theorem borrow_none {xs : List Byte} (hx : AllCells xs) (h : (borrow xs).1 = false) :
    total xs = 0 ∧ (borrow xs).2 = List.replicate xs.length 57 := by
  induction xs with
  | nil => exact ⟨rfl, rfl⟩
  | cons c cs ih =>
    obtain ⟨hc, hcs⟩ := allCells_cons.mp hx
    by_cases hgive : zero.slt c = true
    · rw [borrow, if_pos hgive] at h
      cases h
    · have hnone : ∀ c, Cell c → ¬ zero.slt c = true → digitSum c = 0 := by decide
      rw [borrow, if_neg hgive] at h ⊢
      obtain ⟨htotal, hnines⟩ := ih hcs h
      rw [total_cons, hnone c hc hgive, htotal, hnines]
      exact ⟨rfl, rfl⟩

/-- A column that does not borrow. -/
theorem normHolds_cons_keep {x y : Byte} {xs ys : List Byte} (hx : Cell x) (hy : IsDigit y)
    (hle : x.slt y = false) : NormHolds (x :: xs) (y :: ys) ↔ NormHolds xs ys := by
  have hkeep : ¬ (x = 0 ∨ digitSum x < digitSum y) := by
    rw [← slt_digit_iff hx hy, hle]
    decide
  rw [not_or] at hkeep
  have hxr := digitSum_range hx
  have hyr := digitSum_range (Or.inr hy)
  have howes : ∀ p, Owes 0 (x :: xs) (y :: ys) (p + 1) ↔ Owes 0 xs ys p := by
    intro p
    rw [owes_cons hx (Or.inr hy) (by decide), if_neg (by omega)]
  constructor
  · intro h
    have hlen := h.length
    have htotal := h.le
    simp only [List.length_cons, total_cons] at hlen htotal
    refine ⟨(digits_cons.mp h.digits).2, by omega, by omega, ?_⟩
    intro p hp hhole
    rw [← howes]
    exact h.holes (p + 1) (by simpa using hp) (by simpa using hhole)
  · intro h
    have htotal := h.le
    refine ⟨digits_cons.mpr ⟨hy, h.digits⟩, by simpa using h.length, ?_, ?_⟩
    · rw [total_cons, total_cons]
      omega
    · intro p hp hhole
      rw [howes]
      cases p with
      | zero => exact absurd (Option.some.inj hhole) hkeep.1
      | succ p => exact h.holes p (by simpa using hp) (by simpa using hhole)

/-- A column that borrows from a cell that gives. -/
theorem normHolds_cons_borrow {x y : Byte} {xs ys : List Byte} (hx : Cell x) (hxs : AllCells xs)
    (hy : IsDigit y) (hlt : digitSum x < digitSum y) (hfound : (borrow xs).1 = true) :
    NormHolds (x :: xs) (y :: ys) ↔ NormHolds (borrow xs).2 ys := by
  obtain ⟨_, hlength, htotal, hholes, htakes⟩ := borrow_found hxs hfound
  have hxr := digitSum_range hx
  have hyr := digitSum_range (Or.inr hy)
  have howes : ∀ p, Owes 0 (x :: xs) (y :: ys) (p + 1) ↔
      total (xs.take p) ≤ total (ys.take p) := by
    intro p
    rw [owes_cons hx (Or.inr hy) (by decide), if_pos (by omega), Owes]
    omega
  -- a NUL that the borrow did not reach
  have hup : ∀ p, 0 < total (xs.take p) → xs[p]? = some 0 →
      (Owes 0 (borrow xs).2 ys (p + 1) ↔ total (xs.take (p + 1)) ≤ total (ys.take (p + 1))) := by
    intro p hpos hhole
    have hnext := total_take_hole hhole
    rw [Owes, htakes (p + 1) (by omega)]
    omega
  constructor
  · intro h
    have hlen := h.length
    have hle := h.le
    simp only [List.length_cons, total_cons] at hlen hle
    refine ⟨(digits_cons.mp h.digits).2, by omega, by omega, ?_⟩
    intro p hp hhole
    obtain ⟨hhole, hpos⟩ := (hholes p).mp hhole
    rw [hup p hpos hhole, ← howes]
    exact h.holes (p + 1) (by simpa using hp) (by simpa using hhole)
  · intro h
    have hlen := h.length
    have hle := h.le
    refine ⟨digits_cons.mpr ⟨hy, h.digits⟩, by simp only [List.length_cons]; omega, ?_, ?_⟩
    · rw [total_cons, total_cons]
      omega
    · intro p hp hhole
      rw [howes]
      cases p with
      | zero => exact Int.le_refl 0
      | succ p =>
        rw [List.getElem?_cons_succ] at hhole
        rw [List.length_cons, Nat.succ_lt_succ_iff] at hp
        by_cases hpos : 0 < total (xs.take p)
        · rw [← hup p hpos hhole]
          exact h.holes p hp ((hholes p).mpr ⟨hhole, hpos⟩)
        · have hnext := total_take_hole hhole
          have hys := total_nonneg (allCells_take (allCells_of_digits h.digits) (p + 1))
          omega

theorem bind_eq_ok {α β : Type} {x : Except Fault α} {f : α → Except Fault β} {r : β} :
    x >>= f = .ok r ↔ ∃ a, x = .ok a ∧ f a = .ok r := by
  cases x with
  | error e => simp [bind, Except.bind]
  | ok a => simp [bind, Except.bind]

theorem digits_clean {xs : List Byte} (hx : AllCells xs) :
    Digits (xs.map fun x => toChr (digitSum x)) ∧
      total (xs.map fun x => toChr (digitSum x)) = total xs := by
  induction xs with
  | nil => exact ⟨digits_nil, rfl⟩
  | cons x xs ih =>
    obtain ⟨hx, hxs⟩ := allCells_cons.mp hx
    have hrange := digitSum_range hx
    obtain ⟨hdigits, htotal⟩ := ih hxs
    rw [List.map_cons, total_cons, total_cons, htotal, digitSum_toChr hrange.1 (by omega)]
    exact ⟨digits_cons.mpr ⟨isDigit_toChr hrange.1 (by omega), hdigits⟩, rfl⟩

/-- Columns in the order `NORM` are subtracted. -/
theorem subNorm_of_holds {ys : List Byte} : ∀ {xs : List Byte}, AllCells xs → NormHolds xs ys →
    ∃ out, subNorm xs ys = .ok out ∧ Digits out ∧ out.length = xs.length ∧
      total out = total xs - total ys := by
  induction ys with
  | nil =>
    intro xs hx _
    obtain ⟨hdigits, htotal⟩ := digits_clean hx
    exact ⟨_, rfl, hdigits, List.length_map _, by rw [htotal, total_nil, sub_zero]⟩
  | cons y ys ih =>
    intro xs hx h
    cases xs with
    | nil => exact absurd h.length (by simp)
    | cons x xs =>
      obtain ⟨hx, hxs⟩ := allCells_cons.mp hx
      have hy := (digits_cons.mp h.digits).1
      have hxr := digitSum_range hx
      have hyr := digitSum_range (Or.inr hy)
      rw [subNorm]
      cases hslt : x.slt y with
      | false =>
        have hle : ¬ (x = 0 ∨ digitSum x < digitSum y) := by
          rw [← slt_digit_iff hx hy, hslt]
          decide
        rw [normHolds_cons_keep hx hy hslt] at h
        obtain ⟨out, hout, hdigits, hlen, htotal⟩ := ih hxs h
        rw [if_neg (by decide), hout, offset_digit hy]
        refine ⟨_, rfl, digits_cons.mpr ⟨isDigit_toChr (by omega) (by omega), hdigits⟩, ?_, ?_⟩
        · rw [List.length_cons, List.length_cons, hlen]
        · rw [total_cons, total_cons, total_cons, htotal,
            digitSum_toChr (by omega) (by omega)]
          ring
      | true =>
        have hlt : digitSum x < digitSum y := by
          rcases (slt_digit_iff hx hy).mp hslt with rfl | hlt
          · simpa [Owes] using h.holes 0 (by simp) rfl
          · exact hlt
        have hfound : (borrow xs).1 = true := by
          by_contra hnone
          rw [Bool.not_eq_true] at hnone
          have hzero := (borrow_none hxs hnone).1
          have hys := total_nonneg (allCells_of_digits (digits_cons.mp h.digits).2)
          have hle := h.le
          rw [total_cons, total_cons, hzero] at hle
          omega
        rw [normHolds_cons_borrow hx hxs hy hlt hfound] at h
        obtain ⟨hcells, hlength, hborrowed, _, _⟩ := borrow_found hxs hfound
        obtain ⟨out, hout, hdigits, hlen, htotal⟩ := ih hcells h
        rw [if_pos rfl, hout, hfound, if_pos rfl, offset_digit hy]
        refine ⟨_, rfl, digits_cons.mpr ⟨isDigit_toChr (by omega) (by omega), hdigits⟩, ?_, ?_⟩
        · rw [List.length_cons, List.length_cons, hlen, hlength]
        · rw [total_cons, total_cons, total_cons, htotal, hborrowed,
            digitSum_toChr (by omega) (by omega)]
          ring

theorem isDigit_toChr_iff {n : Int} (hlow : -80 ≤ n) (hhigh : n ≤ 80) :
    IsDigit (toChr n) ↔ 0 ≤ n ∧ n < 10 := by
  have hnat : (toChr n).toNat = ((n + 48) % 256).toNat := BitVec.toNat_ofInt ..
  rw [IsDigit, hnat]
  omega

/-- Column `p` of the minuend is a NUL that nothing is to be taken from, but it borrows, and all
    that is above it is zero: nines come out of it. -/
structure Spurious (xs ys out : List Byte) (p : Nat) : Prop where
  digits : Digits ys
  length : ys.length ≤ xs.length
  hole : xs[p]? = some 0
  nothing : ys[p]? = some zero
  above : total (xs.drop p) = 0
  below : total (ys.take p) ≤ total (xs.take p)
  value : total out = total xs - total ys + (10 ^ xs.length - 10 ^ (p + 1))

theorem subNorm_ne_nul {x y : Byte} {xs ys out : List Byte} (hx : Cell x) (hy : Cell y)
    (h : subNorm (x :: xs) (y :: ys) = .ok out) (hdigits : Digits out) : IsDigit y := by
  rcases hy with rfl | hy
  · exfalso
    have hle : ∀ x, Cell x → x.slt 0 = false ∧ ¬ IsDigit (toChr (digitSum x - offset 0)) := by decide
    obtain ⟨hslt, hno⟩ := hle x hx
    rw [subNorm, hslt, if_neg (by decide), bind_eq_ok] at h
    obtain ⟨rest, _, hout⟩ := h
    cases hout
    exact hno (digits_cons.mp hdigits).1
  · exact hy

/-- Above the cell where no cell gives there are nines, and these are enough for the rest. -/
theorem subNorm_nines {n : Nat} {ys out : List Byte} (hy : Digits ys) (hlen : ys.length ≤ n)
    (h : subNorm (List.replicate n 57) ys = .ok out) : total out = 10 ^ n - 1 - total ys := by
  have hnines : Digits (List.replicate n (57 : Byte)) := by
    intro c hc
    rw [List.eq_of_mem_replicate hc]
    decide
  have hlt : total ys < 10 ^ ys.length := by
    rw [← number_reverse hy]
    have hnum := number_lt (digits_reverse.mpr hy)
    rw [List.length_reverse] at hnum
    exact_mod_cast hnum
  have hpow : (10 : Int) ^ ys.length ≤ 10 ^ n := pow_le_pow_right₀ (by decide) hlen
  have hholds : NormHolds (List.replicate n 57) ys := by
    refine ⟨hy, by simpa using hlen, ?_, ?_⟩
    · rw [total_nines]
      omega
    · intro p _ hhole
      rw [List.getElem?_replicate] at hhole
      split at hhole <;> cases hhole
  obtain ⟨out', hout, _, _, htotal⟩ := subNorm_of_holds (allCells_of_digits hnines) hholds
  rw [h] at hout
  cases hout
  rw [htotal, total_nines]

/-- A column below such a one, with what it takes from those above. -/
theorem spurious_cons (give : Int) {x y d : Byte} {xs xs' ys out : List Byte} {p : Nat}
    (hx : Cell x) (hy : IsDigit y) (h : Spurious xs' ys out p) (hlength : xs'.length = xs.length)
    (hhole : xs[p]? = some 0) (habove : total (xs.drop p) = 0)
    (htakes : total (xs'.take p) = total (xs.take p) - give) (htotal : total xs' = total xs - give)
    (hgive : 0 ≤ give) (hborrow : give = 0 → digitSum y ≤ digitSum x)
    (hd : digitSum d = digitSum x + 10 * give - digitSum y) :
    Spurious (x :: xs) (y :: ys) (d :: out) (p + 1) := by
  have hxr := digitSum_range hx
  have hyr := digitSum_range (Or.inr hy)
  have hbelow := h.below
  have hvalue := h.value
  refine ⟨digits_cons.mpr ⟨hy, h.digits⟩, ?_, by simpa using hhole, by simpa using h.nothing,
    by simpa using habove, ?_, ?_⟩
  · rw [List.length_cons, List.length_cons, ← hlength]
    exact Nat.succ_le_succ h.length
  · rw [List.take_succ_cons, List.take_succ_cons, total_cons, total_cons]
    omega
  · rw [total_cons, total_cons, total_cons, hvalue, htotal, hd, hlength, List.length_cons,
      pow_succ, pow_succ, pow_succ]
    ring

/-- A borrow leaves the top column a digit. -/
theorem borrow_top {xs : List Byte} (hx : AllCells xs) (h : (borrow xs).1 = true)
    (htop : ∀ c, xs.getLast? = some c → IsDigit c) :
    ∀ c, (borrow xs).2.getLast? = some c → IsDigit c := by
  obtain ⟨hcells, hlength, _, hholes, _⟩ := borrow_found hx h
  intro c hc
  rcases hcells c (List.mem_of_getLast? hc) with rfl | hdigit
  · rw [List.getLast?_eq_getElem?, hholes, hlength, ← List.getLast?_eq_getElem?] at hc
    exact absurd (htop 0 hc.1) not_isDigit_nul
  · exact hdigit

/-- A column that does not borrow. -/
theorem holds_keep {x y : Byte} {xs ys rest : List Byte} (hx : Cell x) (hdigit : IsDigit y)
    (hslt : x.slt y = false) (h : NormHolds xs ys ∨ ∃ p, Spurious xs ys rest p) :
    NormHolds (x :: xs) (y :: ys) ∨
      ∃ p, Spurious (x :: xs) (y :: ys) (toChr (digitSum x - offset y) :: rest) p := by
  have hxr := digitSum_range hx
  have hyr := digitSum_range (Or.inr hdigit)
  have hkeep : ¬ (x = 0 ∨ digitSum x < digitSum y) := by
    rw [← slt_digit_iff hx hdigit, hslt]
    decide
  rcases h with hholds | ⟨p, hp⟩
  · exact Or.inl ((normHolds_cons_keep hx hdigit hslt).mpr hholds)
  · refine Or.inr ⟨p + 1, spurious_cons 0 hx hdigit hp rfl hp.hole hp.above
      (sub_zero _).symm (sub_zero _).symm (le_refl 0) (fun _ => by omega) ?_⟩
    rw [offset_digit hdigit, digitSum_toChr (by omega) (by omega)]
    ring

/-- A column that borrows, with a cell above that gives. -/
theorem holds_borrow {x y : Byte} {xs ys rest : List Byte} (hx : Cell x) (hxs : AllCells xs)
    (hdigit : IsDigit y) (hlt : digitSum x < digitSum y) (hfound : (borrow xs).1 = true)
    (h : NormHolds (borrow xs).2 ys ∨ ∃ p, Spurious (borrow xs).2 ys rest p) :
    NormHolds (x :: xs) (y :: ys) ∨
      ∃ p, Spurious (x :: xs) (y :: ys) (toChr (digitSum x + 10 - offset y) :: rest) p := by
  have hxr := digitSum_range hx
  have hyr := digitSum_range (Or.inr hdigit)
  obtain ⟨hcells, hlength, hborrowed, hholes, htakes⟩ := borrow_found hxs hfound
  rcases h with hholds | ⟨p, hp⟩
  · exact Or.inl ((normHolds_cons_borrow hx hxs hdigit hlt hfound).mpr hholds)
  · obtain ⟨hhole, hpos⟩ := (hholes p).mp hp.hole
    have hp_le : p ≤ xs.length := by
      have hbound := (List.getElem?_eq_some_iff.mp hhole).1
      omega
    have habove : total (xs.drop p) = 0 := by
      have hsplit := total_split xs p hp_le
      have hsplit' := total_split (borrow xs).2 p (by omega)
      rw [hp.above, htakes p hpos, hborrowed, mul_zero] at hsplit'
      have hzero : (10 : Int) ^ p * total (xs.drop p) = 0 := by omega
      exact (mul_eq_zero.mp hzero).resolve_left (pow_ne_zero p (by decide))
    refine Or.inr ⟨p + 1, spurious_cons 1 hx hdigit hp hlength hhole habove
      (htakes p hpos) hborrowed (by decide) (fun h => absurd h (by decide)) ?_⟩
    rw [offset_digit hdigit, digitSum_toChr (by omega) (by omega)]
    ring

/-- A column that borrows where no cell gives. -/
theorem spurious_borrow {x y : Byte} {xs ys rest : List Byte} (hnul : x = 0) (hdigit : IsDigit y)
    (hy0 : digitSum y = 0) (hzero : total xs = 0) (hys : Digits ys) (hlength : ys.length ≤ xs.length)
    (hrest : subNorm (List.replicate xs.length 57) ys = .ok rest) :
    Spurious (x :: xs) (y :: ys) (toChr (digitSum x + 0 - offset y) :: rest) 0 := by
  have hrest' := subNorm_nines hys hlength hrest
  have hx0 : digitSum x = 0 := by rw [hnul]; decide
  refine ⟨digits_cons.mpr ⟨hdigit, hys⟩, Nat.succ_le_succ hlength, by rw [hnul]; rfl, ?_, ?_,
    le_refl _, ?_⟩
  · rw [List.getElem?_cons_zero, (digitSum_eq_zero_iff hdigit).mp hy0]
  · rw [List.drop_zero, total_cons, hzero, hnul]
    decide
  · rw [offset_digit hdigit, total_cons, total_cons, total_cons, hrest', hzero,
      digitSum_toChr (by omega) (by omega), List.length_cons, pow_succ]
    ring

/-- Digits come out where the columns are right, and with nines out of nothing. -/
theorem holds_of_subNorm {ys : List Byte} : ∀ {xs out : List Byte}, AllCells xs → AllCells ys →
    (∀ c, xs.getLast? = some c → IsDigit c) → subNorm xs ys = .ok out → Digits out →
    NormHolds xs ys ∨ ∃ p, Spurious xs ys out p := by
  induction ys with
  | nil =>
    intro xs out hx _ _ _ _
    refine Or.inl ⟨digits_nil, Nat.zero_le _, total_nonneg hx, ?_⟩
    intro p hp
    cases hp
  | cons y ys ih =>
    intro xs out hx hy htop h hdigits
    cases xs with
    | nil => cases h
    | cons x xs =>
      obtain ⟨hx, hxs⟩ := allCells_cons.mp hx
      have hdigit := subNorm_ne_nul hx (allCells_cons.mp hy).1 h hdigits
      have hys := (allCells_cons.mp hy).2
      have hxr := digitSum_range hx
      have hyr := digitSum_range (Or.inr hdigit)
      have htop' : ∀ c, xs.getLast? = some c → IsDigit c := by
        intro c hc
        apply htop c
        rw [List.getLast?_cons, hc]
        rfl
      rw [subNorm] at h
      cases hslt : x.slt y with
      | false =>
        rw [hslt, if_neg (by decide), bind_eq_ok] at h
        obtain ⟨rest, hrest, hout⟩ := h
        cases hout
        exact holds_keep hx hdigit hslt (ih hxs hys htop' hrest (digits_cons.mp hdigits).2)
      | true =>
        rw [hslt, if_pos rfl, bind_eq_ok] at h
        obtain ⟨rest, hrest, hout⟩ := h
        cases hout
        obtain ⟨hfirst, hrestd⟩ := digits_cons.mp hdigits
        rw [offset_digit hdigit, isDigit_toChr_iff (by split <;> omega) (by split <;> omega)]
          at hfirst
        cases hfound : (borrow xs).1 with
        | true =>
          rw [hfound, if_pos rfl] at hfirst
          rw [if_pos rfl]
          obtain ⟨hcells, -⟩ := borrow_found hxs hfound
          exact holds_borrow hx hxs hdigit (by omega) hfound
            (ih hcells hys (borrow_top hxs hfound htop') hrest hrestd)
        | false =>
          rw [hfound, if_neg (by decide)] at hfirst
          obtain ⟨hzero, hnines⟩ := borrow_none hxs hfound
          rw [hnines] at hrest
          have hnul : x = 0 := ((slt_digit_iff hx hdigit).mp hslt).resolve_right (by omega)
          have hx0 : digitSum x = 0 := by rw [hnul]; decide
          have hnine : ∀ c ∈ List.replicate xs.length (57 : Byte), IsDigit c := by
            intro c hc
            rw [List.eq_of_mem_replicate hc]
            decide
          have hshape : Digits ys ∧ ys.length ≤ (List.replicate xs.length (57 : Byte)).length := by
            rcases ih (fun c hc => Or.inr (hnine c hc)) hys
              (fun c hc => hnine c (List.mem_of_getLast? hc)) hrest hrestd with hholds | ⟨p, hp⟩
            · exact ⟨hholds.digits, hholds.length⟩
            · exact ⟨hp.digits, hp.length⟩
          rw [List.length_replicate] at hshape
          rw [if_neg (by decide)]
          exact Or.inr ⟨0, spurious_borrow hnul hdigit (by omega) hzero hshape.1 hshape.2 hrest⟩

/-! ### The order `REV` -/

/-- The columns that come out as digits: no borrow reaches in front of the storage, and where the
    subtrahend has a zero there is something for a borrow from below, and no NUL. -/
structure RevDigits (debt : Int) (xs ys : List Byte) : Prop where
  digits : Digits ys
  length : ys.length ≤ xs.length
  covered : ys.length = xs.length → ¬ Owes debt xs ys ys.length
  nonzero : ∀ p, ys[p]? = some zero → xs[p]? ≠ some 0 ∧ (Owes debt xs ys p → xs[p]? ≠ some zero)

/-- What the borrows lose that find nothing to take. -/
def lost (debt : Int) (xs ys : List Byte) : Int :=
  ∑ p ∈ Finset.range (ys.length + 1),
    if Owes debt xs ys p ∧ digitSum (xs.getD p 0) = 0 then 10 ^ p else 0

/-- The storage after a borrow from the column below. -/
def lowered (debt : Int) : List Byte → List Byte
  | [] => []
  | x :: xs => (if debt = 1 then x - 1 else x) :: xs

theorem lost_cons {debt : Int} {x y : Byte} {xs ys : List Byte} (hx : Cell x) (hy : Cell y)
    (hdebt : 0 ≤ debt ∧ debt ≤ 1) : lost debt (x :: xs) (y :: ys) =
      (if 0 < debt ∧ digitSum x = 0 then 1 else 0) +
        10 * lost (if digitSum x < digitSum y + debt then 1 else 0) xs ys := by
  rw [lost, List.length_cons, Finset.sum_range_succ', lost, Finset.mul_sum, add_comm]
  congr 1
  · simp [Owes]
  · apply Finset.sum_congr rfl
    intro p _
    simp only [owes_cons hx hy hdebt, List.getD_cons_succ]
    rw [mul_ite, mul_zero, pow_succ, mul_comm]

theorem revDigits_cons {debt : Int} {x y : Byte} {xs ys : List Byte} (hx : Cell x) (hy : IsDigit y)
    (hdebt : 0 ≤ debt ∧ debt ≤ 1) : RevDigits debt (x :: xs) (y :: ys) ↔
      (y = zero → x ≠ 0 ∧ (0 < debt → x ≠ zero)) ∧
        RevDigits (if digitSum x < digitSum y + debt then 1 else 0) xs ys := by
  have howes : ∀ p, Owes debt (x :: xs) (y :: ys) (p + 1) ↔
      Owes (if digitSum x < digitSum y + debt then 1 else 0) xs ys p :=
    owes_cons hx (Or.inr hy) hdebt
  constructor
  · intro h
    refine ⟨?_, (digits_cons.mp h.digits).2, by simpa using h.length, ?_, ?_⟩
    · rintro rfl
      obtain ⟨hnul, hzero⟩ := h.nonzero 0 rfl
      exact ⟨fun hx => hnul (by rw [hx]; rfl),
        fun hpos hx => hzero (by simpa [Owes] using hpos) (by rw [hx]; rfl)⟩
    · intro hlen
      rw [← howes]
      exact h.covered (by simpa using hlen)
    · intro p hp
      rw [← howes]
      exact h.nonzero (p + 1) hp
  · rintro ⟨hfirst, h⟩
    refine ⟨digits_cons.mpr ⟨hy, h.digits⟩, by simpa using h.length, ?_, ?_⟩
    · intro hlen
      rw [List.length_cons, howes]
      exact h.covered (by simpa using hlen)
    · intro p hp
      cases p with
      | zero =>
        obtain ⟨hnul, hzero⟩ := hfirst (Option.some.inj hp)
        refine ⟨fun hx => hnul (Option.some.inj hx), fun howe hx => hzero ?_ (Option.some.inj hx)⟩
        simpa [Owes] using howe
      | succ p =>
        rw [howes]
        exact h.nonzero p hp

/-- A cell that may have given one, against a digit. -/
theorem lowered_cell {debt : Int} {x y : Byte} (hdebt : debt = 0 ∨ debt = 1) (hx : Cell x)
    (hy : IsDigit y) :
    digitSum (if debt = 1 then x - 1 else x) =
        digitSum x - debt + (if 0 < debt ∧ digitSum x = 0 then 1 else 0) ∧
      ((if debt = 1 then x - 1 else x).slt y = true ↔ x = 0 ∨ digitSum x < digitSum y + debt) := by
  rcases hdebt with rfl | rfl
  · refine ⟨by simp, ?_⟩
    rw [if_neg (by decide), slt_digit_iff hx hy, add_zero]
  · have hxr := digitSum_range hx
    have hyr := digitSum_range (Or.inr hy)
    have hdown : ∀ x, Cell x → digitSum (x - 1) = digitSum x - 1 + (if digitSum x = 0 then 1 else 0) ∧
        ((digitSum x = 0 → (x - 1).toInt < 48) ∧
          (digitSum x ≠ 0 → (x - 1).toInt = digitSum x + 47)) := by decide
    obtain ⟨hvalue, hlow, hhigh⟩ := hdown x hx
    have hnul : x = 0 → digitSum x = 0 := by
      rintro rfl
      decide
    refine ⟨by rw [if_pos rfl, hvalue]; simp, ?_⟩
    rw [if_pos rfl, BitVec.slt_eq_decide, decide_eq_true_eq, toInt_digit hy]
    by_cases hzero : digitSum x = 0
    · have hlow := hlow hzero
      constructor
      · intro _
        exact Or.inr (by omega)
      · intro _
        omega
    · rw [hhigh hzero]
      constructor
      · intro h
        exact Or.inr (by omega)
      · rintro (h | h)
        · exact absurd (hnul h) hzero
        · omega

theorem subRev_nil {debt : Int} {xs : List Byte} (hdebt : debt = 0 ∨ debt = 1) (hx : AllCells xs)
    (hne : debt = 1 → xs ≠ []) : RevDigits debt xs [] ∧
      ∃ out, subRev (lowered debt xs) [] = .ok out ∧ Digits out ∧ out.length = xs.length ∧
        total out = total xs - debt + lost debt xs [] := by
  constructor
  · refine ⟨digits_nil, Nat.zero_le _, ?_, ?_⟩
    · intro hlen howes
      rcases hdebt with rfl | rfl
      · exact absurd howes (lt_irrefl 0)
      · exact hne rfl (List.length_eq_zero_iff.mp hlen.symm)
    · intro p hp
      cases hp
  · cases xs with
    | nil =>
      have hzero : debt = 0 := hdebt.resolve_right fun h => hne h rfl
      refine ⟨[], rfl, digits_nil, rfl, ?_⟩
      rw [hzero]
      rfl
    | cons x xs =>
      obtain ⟨hx, hxs⟩ := allCells_cons.mp hx
      obtain ⟨hdigits, htotal⟩ := digits_clean hxs
      have hvalue := (lowered_cell hdebt hx isDigit_zero).1
      have hxr := digitSum_range hx
      have hrange : 0 ≤ digitSum (if debt = 1 then x - 1 else x) ∧
          digitSum (if debt = 1 then x - 1 else x) < 10 := by
        rw [hvalue]
        split <;> omega
      have hlost : lost debt (x :: xs) [] = if 0 < debt ∧ digitSum x = 0 then 1 else 0 := by
        simp [lost, Owes]
      refine ⟨_, rfl, ?_, by simp [lowered], ?_⟩
      · exact digits_cons.mpr ⟨isDigit_toChr hrange.1 hrange.2, hdigits⟩
      · rw [lowered, List.map_cons, total_cons, total_cons, htotal,
          digitSum_toChr hrange.1 hrange.2, hvalue, hlost]
        ring

@[simp] theorem lowered_zero (xs : List Byte) : lowered 0 xs = xs := by
  cases xs <;> rfl

theorem takeOne_eq_ok {xs r : List Byte} : takeOne xs = .ok r ↔ xs ≠ [] ∧ lowered 1 xs = r := by
  cases xs <;> simp [takeOne, lowered]

/-- A NUL in the subtrahend leaves no digit. -/
theorem subRev_nul {debt : Int} {x : Byte} {xs ys out : List Byte} (hx : Cell x)
    (h : subRev (lowered debt (x :: xs)) (0 :: ys) = .ok out) : ¬ Digits out := by
  have hbad : ∀ x, Cell x → ∀ c, c = x ∨ c = x - 1 →
      ¬ IsDigit (toChr (digitSum c + 10 - offset 0)) ∧
        ¬ IsDigit (toChr (digitSum c - offset 0)) := by
    have hall : ∀ x, Cell x → (¬ IsDigit (toChr (digitSum x + 10 - offset 0)) ∧
        ¬ IsDigit (toChr (digitSum x - offset 0))) ∧
        ¬ IsDigit (toChr (digitSum (x - 1) + 10 - offset 0)) ∧
        ¬ IsDigit (toChr (digitSum (x - 1) - offset 0)) := by decide
    rintro x hx c (rfl | rfl)
    · exact (hall _ hx).1
    · exact (hall _ hx).2
  have hcell : (if debt = 1 then x - 1 else x) = x ∨ (if debt = 1 then x - 1 else x) = x - 1 := by
    split
    · exact Or.inr rfl
    · exact Or.inl rfl
  obtain ⟨hlarge, hsmall⟩ := hbad x hx _ hcell
  intro hdigits
  rw [lowered, subRev] at h
  generalize (if debt = 1 then x - 1 else x) = c at h hlarge hsmall
  split at h
  · rw [bind_eq_ok] at h
    obtain ⟨_, _, h⟩ := h
    rw [bind_eq_ok] at h
    obtain ⟨rest, _, hout⟩ := h
    cases hout
    exact hlarge (digits_cons.mp hdigits).1
  · rw [bind_eq_ok] at h
    obtain ⟨rest, _, hout⟩ := h
    cases hout
    exact hsmall (digits_cons.mp hdigits).1

/-- A column that borrows in the order `REV`: whether a digit comes out. -/
theorem revColumn_iff {debt : Int} {x y h : Byte} (hdebt : debt = 0 ∨ debt = 1) (hx : Cell x)
    (hy : IsDigit y)
    (hvalue : digitSum h = digitSum x - debt + (if 0 < debt ∧ digitSum x = 0 then 1 else 0))
    (hborrow : x = 0 ∨ digitSum x < digitSum y + debt) :
    (IsDigit (toChr (digitSum h + 10 - digitSum y)) ↔
        (y = zero → x ≠ 0 ∧ (0 < debt → x ≠ zero))) ∧
      (IsDigit (toChr (digitSum h + 10 - digitSum y)) → digitSum x < digitSum y + debt ∧
        0 ≤ digitSum h + 10 - digitSum y ∧ digitSum h + 10 - digitSum y < 10) := by
  have hxr := digitSum_range hx
  have hyr := digitSum_range (Or.inr hy)
  have hyzero := digitSum_eq_zero_iff hy
  have hxzero : digitSum x = 0 ↔ x = 0 ∨ x = zero := by
    have hall : ∀ x, Cell x → (digitSum x = 0 ↔ x = 0 ∨ x = zero) := by decide
    exact hall x hx
  have hhr : 0 ≤ digitSum h ∧ digitSum h ≤ 9 := by
    rw [hvalue]
    split <;> omega
  have hless : digitSum y ≠ 0 → digitSum h < digitSum y ∧ digitSum x < digitSum y + debt := by
    intro hne
    have hsmall : digitSum x < digitSum y + debt := by
      rcases hborrow with hnul | hlt
      · rw [hxzero.mpr (Or.inl hnul)]
        omega
      · exact hlt
    refine ⟨?_, hsmall⟩
    rw [hvalue]
    split <;> omega
  rw [isDigit_toChr_iff (by omega) (by omega)]
  constructor
  · constructor
    · intro hdigit hzero
      have hnothing := hyzero.mpr hzero
      omega
    · intro hcond
      have hne : digitSum y ≠ 0 := by
        intro hzero
        obtain ⟨hnul, hgive⟩ := hcond (hyzero.mp hzero)
        have hlt := hborrow.resolve_left hnul
        rcases hxzero.mp (by omega) with h | h
        · exact hnul h
        · exact hgive (by omega) h
      have hsmall := (hless hne).1
      omega
  · intro hdigit
    exact ⟨(hless (by omega)).2, hdigit⟩

theorem not_revDigits_nil {ys : List Byte} : ¬ RevDigits 1 [] ys := by
  intro h
  have hnil : ys = [] := List.length_eq_zero_iff.mp (Nat.le_zero.mp h.length)
  subst hnil
  exact h.covered rfl (by decide)

/-- What is said of the columns: exactly when digits come out, and their number. -/
def RevColumns (debt : Int) (xs ys : List Byte) : Prop :=
  ((∃ out, subRev (lowered debt xs) ys = .ok out ∧ Digits out) ↔ RevDigits debt xs ys) ∧
    ∀ out, subRev (lowered debt xs) ys = .ok out → Digits out →
      out.length = xs.length ∧ total out = total xs - total ys - debt + lost debt xs ys

/-- A column that does not borrow. -/
theorem revColumns_keep {debt : Int} {x y : Byte} {xs ys : List Byte} (hdebt : debt = 0 ∨ debt = 1)
    (hx : Cell x) (hdigit : IsDigit y) (hslt : (if debt = 1 then x - 1 else x).slt y = false)
    (h : RevColumns 0 xs ys) : RevColumns debt (x :: xs) (y :: ys) := by
  obtain ⟨hiff, hrun⟩ := h
  have hxr := digitSum_range hx
  have hyr := digitSum_range (Or.inr hdigit)
  have hbound : 0 ≤ debt ∧ debt ≤ 1 := by omega
  have hxzero : x = zero → digitSum x = 0 := by
    rintro rfl
    decide
  obtain ⟨hvalue, hless⟩ := lowered_cell hdebt hx hdigit
  rw [RevColumns, revDigits_cons hx hdigit hbound, lost_cons hx (Or.inr hdigit) hbound, lowered,
    subRev, offset_digit hdigit]
  generalize (if debt = 1 then x - 1 else x) = h at hvalue hless hslt ⊢
  have hkeep : ¬ (x = 0 ∨ digitSum x < digitSum y + debt) := by
    rw [← hless, hslt]
    decide
  rw [not_or] at hkeep
  have hsum : digitSum h - digitSum y = digitSum x - debt - digitSum y := by
    rw [hvalue, if_neg (by omega)]
    ring
  rw [lowered_zero] at hiff hrun
  rw [hslt, if_neg (by decide), if_neg hkeep.2, ← hiff, hsum]
  constructor
  · constructor
    · rintro ⟨out, hout, hdigits⟩
      obtain ⟨rest, hrest, hout⟩ := bind_eq_ok.mp hout
      cases hout
      refine ⟨fun _ => ⟨hkeep.1, fun hpos hx => ?_⟩, rest, hrest, (digits_cons.mp hdigits).2⟩
      rw [hxzero hx] at hkeep
      omega
    · rintro ⟨_, rest, hrest, hdigits⟩
      exact ⟨_, bind_eq_ok.mpr ⟨rest, hrest, rfl⟩,
        digits_cons.mpr ⟨isDigit_toChr (by omega) (by omega), hdigits⟩⟩
  · intro out hout hdigits
    obtain ⟨rest, hrest, hout⟩ := bind_eq_ok.mp hout
    cases hout
    obtain ⟨hlen, htotal⟩ := hrun rest hrest (digits_cons.mp hdigits).2
    refine ⟨by rw [List.length_cons, List.length_cons, hlen], ?_⟩
    rw [total_cons, total_cons, total_cons, htotal, digitSum_toChr (by omega) (by omega),
      if_neg (by omega)]
    ring

/-- What a column that borrows does: one is taken from the next cell. -/
theorem subRev_borrow {xs ys out : List Byte} {d : Byte} :
    (do
      let xs ← takeOne xs
      let rest ← subRev xs ys
      return d :: rest : Except Fault (List Byte)) = .ok out ↔
        xs ≠ [] ∧ ∃ rest, subRev (lowered 1 xs) ys = .ok rest ∧ d :: rest = out := by
  rw [bind_eq_ok]
  constructor
  · rintro ⟨r, hr, hout⟩
    obtain ⟨hne, rfl⟩ := takeOne_eq_ok.mp hr
    obtain ⟨rest, hrest, hout⟩ := bind_eq_ok.mp hout
    exact ⟨hne, rest, hrest, Except.ok.inj hout⟩
  · rintro ⟨hne, rest, hrest, rfl⟩
    exact ⟨_, takeOne_eq_ok.mpr ⟨hne, rfl⟩, bind_eq_ok.mpr ⟨rest, hrest, rfl⟩⟩

/-- A column that borrows. -/
theorem revColumns_borrow {debt : Int} {x y : Byte} {xs ys : List Byte}
    (hdebt : debt = 0 ∨ debt = 1) (hx : Cell x) (hdigit : IsDigit y)
    (hslt : (if debt = 1 then x - 1 else x).slt y = true) (hrec : xs ≠ [] → RevColumns 1 xs ys) :
    RevColumns debt (x :: xs) (y :: ys) := by
  have hbound : 0 ≤ debt ∧ debt ≤ 1 := by omega
  obtain ⟨hvalue, hless⟩ := lowered_cell hdebt hx hdigit
  rw [RevColumns, revDigits_cons hx hdigit hbound, lost_cons hx (Or.inr hdigit) hbound, lowered,
    subRev, offset_digit hdigit]
  generalize (if debt = 1 then x - 1 else x) = h at hvalue hless hslt ⊢
  obtain ⟨hfirst, hrange⟩ := revColumn_iff hdebt hx hdigit hvalue (hless.mp hslt)
  rw [hslt, if_pos rfl]
  simp only [subRev_borrow, ← hfirst]
  by_cases hne : xs = []
  · refine ⟨iff_of_false ?_ ?_, fun _ hout => absurd hne hout.1⟩
    · rintro ⟨_, hout, _⟩
      exact hout.1 hne
    · rintro ⟨hd, hholds⟩
      rw [if_pos (hrange hd).1, hne] at hholds
      exact not_revDigits_nil hholds
  · obtain ⟨hiff, hrun⟩ := hrec hne
    constructor
    · constructor
      · rintro ⟨out, ⟨_, rest, hrest, rfl⟩, hdigits⟩
        obtain ⟨hd, hdigits⟩ := digits_cons.mp hdigits
        rw [if_pos (hrange hd).1, ← hiff]
        exact ⟨hd, rest, hrest, hdigits⟩
      · rintro ⟨hd, hholds⟩
        rw [if_pos (hrange hd).1, ← hiff] at hholds
        obtain ⟨rest, hrest, hdigits⟩ := hholds
        exact ⟨_, ⟨hne, rest, hrest, rfl⟩, digits_cons.mpr ⟨hd, hdigits⟩⟩
    · rintro out ⟨_, rest, hrest, rfl⟩ hdigits
      obtain ⟨hd, hdigits⟩ := digits_cons.mp hdigits
      obtain ⟨hlen, htotal⟩ := hrun rest hrest hdigits
      obtain ⟨howes, h0, h9⟩ := hrange hd
      refine ⟨by rw [List.length_cons, List.length_cons, hlen], ?_⟩
      rw [total_cons, total_cons, total_cons, htotal, digitSum_toChr h0 h9, hvalue,
        if_pos howes]
      ring

/-- **The columns in the order `REV`**: exactly when digits come out, and their number. -/
theorem subRev_spec {ys : List Byte} : ∀ {debt : Int} {xs : List Byte}, (debt = 0 ∨ debt = 1) →
    AllCells xs → AllCells ys → (debt = 1 → xs ≠ []) → RevColumns debt xs ys := by
  induction ys with
  | nil =>
    intro debt xs hdebt hx _ hne
    obtain ⟨hholds, out, hout, hdigits, hlen, htotal⟩ := subRev_nil hdebt hx hne
    refine ⟨iff_of_true ⟨out, hout, hdigits⟩ hholds, ?_⟩
    intro out' hout' _
    rw [hout] at hout'
    cases hout'
    exact ⟨hlen, by rw [htotal, total_nil]; ring⟩
  | cons y ys ih =>
    intro debt xs hdebt hx hy hne
    cases xs with
    | nil =>
      refine ⟨iff_of_false ?_ fun h => absurd h.length (by simp), ?_⟩
      · rintro ⟨out, hout, _⟩
        cases hout
      · intro out hout
        cases hout
    | cons x xs =>
      obtain ⟨hx, hxs⟩ := allCells_cons.mp hx
      obtain ⟨hy, hys⟩ := allCells_cons.mp hy
      rcases hy with rfl | hdigit
      · refine ⟨iff_of_false ?_ fun h => not_isDigit_nul (digits_cons.mp h.digits).1, ?_⟩
        · rintro ⟨out, hout, hdigits⟩
          exact subRev_nul hx hout hdigits
        · intro out hout hdigits
          exact absurd hdigits (subRev_nul hx hout)
      · cases hslt : (if debt = 1 then x - 1 else x).slt y with
        | false =>
          exact revColumns_keep hdebt hx hdigit hslt
            (ih (Or.inl rfl) hxs hys fun h => absurd h (by decide))
        | true =>
          exact revColumns_borrow hdebt hx hdigit hslt fun hxs_ne =>
            ih (Or.inr rfl) hxs hys fun _ => hxs_ne

/-! ### Lengths -/

theorem length_borrow (xs : List Byte) : (borrow xs).2.length = xs.length := by
  induction xs with
  | nil => rfl
  | cons x xs ih =>
    rw [borrow]
    split
    · rfl
    · rw [List.length_cons, List.length_cons, ih]

theorem length_subNorm {ys : List Byte} : ∀ {xs out : List Byte}, subNorm xs ys = .ok out →
    out.length = xs.length := by
  induction ys with
  | nil =>
    intro xs out h
    cases h
    exact List.length_map _
  | cons y ys ih =>
    intro xs out h
    cases xs with
    | nil => cases h
    | cons x xs =>
      rw [subNorm] at h
      split at h
      · obtain ⟨rest, hrest, hout⟩ := bind_eq_ok.mp h
        cases hout
        rw [List.length_cons, List.length_cons, ih hrest, length_borrow]
      · obtain ⟨rest, hrest, hout⟩ := bind_eq_ok.mp h
        cases hout
        rw [List.length_cons, List.length_cons, ih hrest]

theorem length_subRev {ys : List Byte} : ∀ {xs out : List Byte}, subRev xs ys = .ok out →
    out.length = xs.length := by
  induction ys with
  | nil =>
    intro xs out h
    cases h
    exact List.length_map _
  | cons y ys ih =>
    intro xs out h
    cases xs with
    | nil => cases h
    | cons x xs =>
      rw [subRev] at h
      split at h
      · obtain ⟨taken, htaken, h⟩ := bind_eq_ok.mp h
        obtain ⟨rest, hrest, hout⟩ := bind_eq_ok.mp h
        cases hout
        cases xs with
        | nil => cases htaken
        | cons x' xs =>
          cases htaken
          rw [List.length_cons, List.length_cons, ih hrest, List.length_cons, List.length_cons]
      · obtain ⟨rest, hrest, hout⟩ := bind_eq_ok.mp h
        cases hout
        rw [List.length_cons, List.length_cons, ih hrest]

end FreeVMS.Rtl.Num
