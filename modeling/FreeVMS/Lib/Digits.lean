import Mathlib.Data.List.Defs
import Mathlib.Tactic.Ring
import Mathlib.Tactic.Linarith
import Mathlib.Tactic.LinearCombination

/-!
# Digit by digit arithmetic

Numbers as lists of digits, the lowest first, and the two ways of working through them: from the
lowest digit up with a carry, as in additions and multiplications by hand, and from the highest
digit down with a remainder, as in divisions.  For each there is one rule: what a single round
conserves, the whole pass conserves.
-/

namespace FreeVMS.Lib.Digits

variable {α β σ : Type}

/-- The number of a list of digits to a base. -/
def valueOf (base : Int) (digit : α → Int) : List α → Int
  | [] => 0
  | d :: ds => digit d + base * valueOf base digit ds

@[simp] theorem valueOf_nil (base : Int) (digit : α → Int) : valueOf base digit [] = 0 := rfl

@[simp] theorem valueOf_cons (base : Int) (digit : α → Int) (d : α) (ds : List α) :
    valueOf base digit (d :: ds) = digit d + base * valueOf base digit ds := rfl

theorem valueOf_map (base : Int) (digit : β → Int) (f : α → β) (ds : List α) :
    valueOf base digit (ds.map f) = valueOf base (fun d => digit (f d)) ds := by
  induction ds with
  | nil => rfl
  | cons d ds ih => rw [List.map_cons, valueOf_cons, valueOf_cons, ih]

theorem valueOf_append (base : Int) (digit : α → Int) (ds es : List α) :
    valueOf base digit (ds ++ es) =
      valueOf base digit ds + base ^ ds.length * valueOf base digit es := by
  induction ds with
  | nil => simp
  | cons d ds ih =>
    rw [List.cons_append, valueOf_cons, valueOf_cons, ih, List.length_cons]
    ring

/-- Digits may be taken apart into a sum. -/
theorem valueOf_add (base : Int) (f g : α → Int) (ds : List α) :
    valueOf base (fun d => f d + g d) ds = valueOf base f ds + valueOf base g ds := by
  induction ds with
  | nil => rfl
  | cons d ds ih =>
    rw [valueOf_cons, valueOf_cons, valueOf_cons, ih]
    ring

theorem valueOf_sub (base : Int) (f g : α → Int) (ds : List α) :
    valueOf base (fun d => f d - g d) ds = valueOf base f ds - valueOf base g ds := by
  induction ds with
  | nil => rfl
  | cons d ds ih =>
    rw [valueOf_cons, valueOf_cons, valueOf_cons, ih]
    ring

theorem valueOf_mul (base k : Int) (f : α → Int) (ds : List α) :
    valueOf base (fun d => f d * k) ds = valueOf base f ds * k := by
  induction ds with
  | nil => simp
  | cons d ds ih =>
    rw [valueOf_cons, valueOf_cons, ih]
    ring

/-- The largest number of a length. -/
theorem valueOf_top (base : Int) (ds : List α) :
    valueOf base (fun _ => base - 1) ds = base ^ ds.length - 1 := by
  induction ds with
  | nil => simp
  | cons d ds ih =>
    rw [valueOf_cons, ih, List.length_cons]
    ring

section Bounded

variable {base : Int} {digit : α → Int}

theorem valueOf_nonneg (hb : 0 ≤ base) (h0 : ∀ d, 0 ≤ digit d) (ds : List α) :
    0 ≤ valueOf base digit ds := by
  induction ds with
  | nil => exact le_refl 0
  | cons d ds ih => exact add_nonneg (h0 d) (mul_nonneg hb ih)

theorem valueOf_lt (hb : 0 < base) (h : ∀ d, digit d < base) (ds : List α) :
    valueOf base digit ds < base ^ ds.length := by
  induction ds with
  | nil => simp
  | cons d ds ih =>
    have hd := h d
    have hstep : base * (valueOf base digit ds + 1) ≤ base * base ^ ds.length :=
      mul_le_mul_of_nonneg_left (by omega) hb.le
    rw [valueOf_cons, List.length_cons, pow_succ, mul_comm (base ^ ds.length)]
    linarith

end Bounded

/-- Digits in their range make up 0 only if they are all 0. -/
theorem valueOf_eq_zero_iff {base : Int} (hb : 0 < base) {ds : List Int}
    (h : ∀ d ∈ ds, 0 ≤ d ∧ d < base) :
    (0 ≤ valueOf base id ds ∧ valueOf base id ds < base ^ ds.length) ∧
      (valueOf base id ds = 0 ↔ ∀ d ∈ ds, d = 0) := by
  induction ds with
  | nil => simp
  | cons d ds ih =>
    obtain ⟨hd, hds⟩ := List.forall_mem_cons.mp h
    obtain ⟨⟨hnonneg, hlt⟩, hzero⟩ := ih hds
    have hprod : 0 ≤ base * valueOf base id ds := mul_nonneg hb.le hnonneg
    have hstep : base * (valueOf base id ds + 1) ≤ base * base ^ ds.length :=
      mul_le_mul_of_nonneg_left (by omega) hb.le
    rw [valueOf_cons, List.length_cons, pow_succ, mul_comm (base ^ ds.length), id_eq,
      List.forall_mem_cons, ← hzero]
    refine ⟨⟨by linarith, by linarith⟩, ?_, ?_⟩
    · intro hsum
      have hd0 : d = 0 := by linarith
      have hprod0 : base * valueOf base id ds = 0 := by linarith
      exact ⟨hd0, (mul_eq_zero.mp hprod0).resolve_left hb.ne'⟩
    · rintro ⟨hd0, hds0⟩
      rw [hd0, hds0, mul_zero, add_zero]

/-! ### From the lowest digit up -/

/-- A pass from the lowest digit up: each round turns the carry and a digit into a digit of the
    result and the next carry. -/
def ripple (round : σ → α → β × σ) : σ → List α → List β × σ
  | carry, [] => ([], carry)
  | carry, d :: ds =>
      let (out, carry) := round carry d
      let (outs, carry) := ripple round carry ds
      (out :: outs, carry)

@[simp] theorem ripple_nil (round : σ → α → β × σ) (carry : σ) :
    ripple round carry [] = ([], carry) := rfl

@[simp] theorem ripple_cons (round : σ → α → β × σ) (carry : σ) (d : α) (ds : List α) :
    ripple round carry (d :: ds) =
      ((round carry d).1 :: (ripple round (round carry d).2 ds).1,
        (ripple round (round carry d).2 ds).2) := rfl

@[simp] theorem length_ripple (round : σ → α → β × σ) (carry : σ) (ds : List α) :
    (ripple round carry ds).1.length = ds.length := by
  induction ds generalizing carry with
  | nil => rfl
  | cons d ds ih => simp [ih]

/-- **The rule of the upward pass.**  If each round, from a carry that satisfies `I`, keeps
    digit plus carry, then so does the pass. -/
theorem ripple_value (I : σ → Prop) (weight : σ → Int) {round : σ → α → β × σ} {base : Int}
    {out : β → Int} {digit : α → Int} (hI : ∀ carry d, I carry → I (round carry d).2)
    (hround : ∀ carry d, I carry →
      out (round carry d).1 + base * weight (round carry d).2 = digit d + weight carry)
    (carry : σ) (hcarry : I carry) (ds : List α) :
    valueOf base out (ripple round carry ds).1 +
        base ^ ds.length * weight (ripple round carry ds).2 =
      valueOf base digit ds + weight carry := by
  induction ds generalizing carry with
  | nil => simp
  | cons d ds ih =>
    have hd := hround carry d hcarry
    have hds := ih _ (hI carry d hcarry)
    rw [ripple_cons, valueOf_cons, valueOf_cons, List.length_cons, pow_succ]
    linear_combination hd + base * hds

/-- What the rounds of a pass lose, digit by digit. -/
def losses (round : σ → α → β × σ) (loss : σ → α → Int) : σ → List α → List Int
  | _, [] => []
  | carry, d :: ds => loss carry d :: losses round loss (round carry d).2 ds

@[simp] theorem losses_nil (round : σ → α → β × σ) (loss : σ → α → Int) (carry : σ) :
    losses round loss carry [] = [] := rfl

@[simp] theorem losses_cons (round : σ → α → β × σ) (loss : σ → α → Int) (carry : σ) (d : α)
    (ds : List α) :
    losses round loss carry (d :: ds) = loss carry d :: losses round loss (round carry d).2 ds := rfl

/-- **The rule of a pass that loses something**, as with a carry that is cut to a word. -/
theorem ripple_value_losses (weight : σ → Int) {round : σ → α → β × σ} {base scale : Int}
    {out : β → Int} {digit : α → Int} {loss : σ → α → Int}
    (hround : ∀ carry d,
      out (round carry d).1 + base * weight (round carry d).2 + scale * loss carry d =
        digit d + weight carry)
    (carry : σ) (ds : List α) :
    valueOf base out (ripple round carry ds).1 +
        base ^ ds.length * weight (ripple round carry ds).2 +
        scale * valueOf base id (losses round loss carry ds) =
      valueOf base digit ds + weight carry := by
  induction ds generalizing carry with
  | nil => simp
  | cons d ds ih =>
    have hd := hround carry d
    have hds := ih (round carry d).2
    rw [ripple_cons, losses_cons, valueOf_cons, valueOf_cons, valueOf_cons, List.length_cons,
      pow_succ, id_eq]
    linear_combination hd + base * hds

/-- A number below the bound that differs from another by a multiple of the bound is its
    remainder. -/
theorem eq_emod_of_carry {x y k bound : Int} (h0 : 0 ≤ x) (hx : x < bound)
    (h : x + bound * k = y) : x = y % bound := by
  rw [← h, Int.add_mul_emod_self_left, Int.emod_eq_of_lt h0 hx]

/-! ### From the highest digit down -/

theorem mapAccumr_nil (round : α → σ → σ × β) (r : σ) :
    List.mapAccumr round [] r = (r, []) := rfl

theorem mapAccumr_cons (round : α → σ → σ × β) (d : α) (ds : List α) (r : σ) :
    List.mapAccumr round (d :: ds) r =
      ((round d (List.mapAccumr round ds r).1).1,
        (round d (List.mapAccumr round ds r).1).2 :: (List.mapAccumr round ds r).2) := rfl

/-- **The rule of the downward pass.**  If each round divides the remainder with the next digit
    behind it by `k`, then the pass divides the number. -/
theorem mapAccumr_value (I : σ → Prop) (rest : σ → Int) {round : α → σ → σ × β} {base k : Int}
    {out : β → Int} {digit : α → Int}
    (hI : ∀ d r, I r → I (round d r).1)
    (hround : ∀ d r, I r →
      k * out (round d r).2 + rest (round d r).1 = base * rest r + digit d)
    (r : σ) (hr : I r) (ds : List α) :
    I (List.mapAccumr round ds r).1 ∧
      k * valueOf base out (List.mapAccumr round ds r).2 + rest (List.mapAccumr round ds r).1 =
        base ^ ds.length * rest r + valueOf base digit ds := by
  induction ds with
  | nil => exact ⟨hr, by simp [mapAccumr_nil]⟩
  | cons d ds ih =>
    obtain ⟨hinv, hvalue⟩ := ih
    have hd := hround d _ hinv
    refine ⟨hI d _ hinv, ?_⟩
    rw [mapAccumr_cons, valueOf_cons, valueOf_cons, List.length_cons, pow_succ]
    linear_combination hd + base * hvalue

end FreeVMS.Lib.Digits
