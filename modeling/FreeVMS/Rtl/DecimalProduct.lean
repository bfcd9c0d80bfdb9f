import FreeVMS.Rtl.DecimalSum

/-!
# The product of two decimals

`str$mul` row by row. Within a row the product is exact, but what is carried out of a row goes into
the first column of the next one, and the last carry takes the place of what has come together in
its column: the result is the product less what gets lost in these two ways.
-/

namespace FreeVMS.Rtl.Num

open Lib.Digits Lib.Scaled

/-! ### Rows -/

/-- The number of columns that are accumulated. -/
def sumOf (cs : List Int) : Int := valueOf 10 id cs

@[simp] theorem sumOf_nil : sumOf [] = 0 := rfl

@[simp] theorem sumOf_cons (c : Int) (cs : List Int) : sumOf (c :: cs) = c + 10 * sumOf cs := rfl

theorem sumOf_append (cs ds : List Int) : sumOf (cs ++ ds) = sumOf cs + 10 ^ cs.length * sumOf ds :=
  valueOf_append 10 id cs ds

/-- A column that is no more than a digit. -/
def IsColumn (c : Int) : Prop := 0 ≤ c ∧ c ≤ 9

/-- What one row leaves: digits, the column behind them at most one larger, and a carry. -/
structure RowLeft (d : Int) (xs : List Byte) (carry : Int) (us us' : List Int) (e carry' : Int) :
    Prop where
  length : us'.length = xs.length
  columns : ∀ u ∈ us', IsColumn u
  behind : e = 0 ∨ e = 1
  carry_eq : carry' = (d * total xs + carry) / 10 ^ xs.length
  carry_range : 0 ≤ carry' ∧ carry' ≤ 8
  value : sumOf us' + 10 ^ xs.length * (e + carry') = sumOf us + d * total xs + carry
  alone : us = [0] → e = 0

theorem mulRow_columns (d : Int) (x : Byte) (xs : List Byte) (carry u w : Int) (cs : List Int) :
    mulRow d (x :: xs) carry (u :: w :: cs) =
      let sum := d * offset x + carry
      let c := u + sum.tmod 10
      let rest := mulRow d xs ((sum - sum.tmod 10).tdiv 10) ((if 9 < c then w + 1 else w) :: cs)
      (rest.1, (if 9 < c then c - 10 else c) :: rest.2) := rfl

/-- One step of a row: what stays in the column, what goes to the next one, and the carry. -/
theorem mulRow_cons {d carry u : Int} {x : Byte} (xs : List Byte) (w : Int) (cs : List Int)
    (hd : 0 ≤ d ∧ d ≤ 9) (hx : IsDigit x) (hcarry : 0 ≤ carry ∧ carry ≤ 8) (hu : 0 ≤ u ∧ u ≤ 10) :
    ∃ out b carry', mulRow d (x :: xs) carry (u :: w :: cs) =
        ((mulRow d xs carry' ((w + b) :: cs)).1, out :: (mulRow d xs carry' ((w + b) :: cs)).2) ∧
      IsColumn out ∧ (b = 0 ∨ b = 1) ∧ (0 ≤ carry' ∧ carry' ≤ 8) ∧
      carry' = (d * digitSum x + carry) / 10 ∧
      out + 10 * (b + carry') = u + d * digitSum x + carry ∧ (u = 0 → b = 0) := by
  have hoff : digitSum x = offset x := by rw [digitSum_of_isDigit hx, offset_of_isDigit hx]
  have hxr : 0 ≤ offset x ∧ offset x ≤ 9 := by
    have hlt := digitOf_lt hx
    rw [offset_of_isDigit hx]
    omega
  have h0 : 0 ≤ d * offset x := mul_nonneg hd.1 hxr.1
  have h81 : d * offset x ≤ 9 * 9 := mul_le_mul hd.2 hxr.2 hxr.1 (by decide)
  rw [hoff, mulRow_columns]
  generalize d * offset x = p at h0 h81 ⊢
  have hmod : (p + carry).tmod 10 = (p + carry) % 10 := Int.tmod_eq_emod_of_nonneg (by omega)
  have hdiv : (p + carry - (p + carry) % 10).tdiv 10 = (p + carry) / 10 := by
    rw [Int.tdiv_eq_ediv_of_nonneg (by omega)]
    omega
  simp only [hmod, hdiv]
  by_cases h : 9 < u + (p + carry) % 10
  · refine ⟨_, 1, _, by rw [if_pos h, if_pos h], ?_, Or.inr rfl, ?_, rfl, ?_, ?_⟩
    · unfold IsColumn
      omega
    · omega
    · omega
    · omega
  · refine ⟨_, 0, _, by rw [if_neg h, if_neg h, add_zero], ?_, Or.inl rfl, ?_, rfl, ?_, ?_⟩
    · unfold IsColumn
      omega
    · omega
    · omega
    · omega

/-- The carry behind a row is the one behind its other columns. -/
theorem carry_cons (d x X carry : Int) (n : Nat) :
    (d * (x + 10 * X) + carry) / 10 ^ (n + 1) =
      (d * X + (d * x + carry) / 10) / 10 ^ n := by
  have hsplit : d * (x + 10 * X) + carry = (d * x + carry) + 10 * (d * X) := by ring
  rw [pow_succ', ← Int.ediv_ediv_of_nonneg (by decide), hsplit,
    Int.add_mul_ediv_left _ _ (by decide), add_comm]

theorem row_left (d : Int) (hd : 0 ≤ d ∧ d ≤ 9) {xs : List Byte} : ∀ {us : List Int}
    {carry : Int} (v : Int) (vs : List Int), Digits xs → us.length = xs.length → (0 ≤ carry ∧ carry ≤ 8) →
    (∀ u, us.head? = some u → 0 ≤ u ∧ u ≤ 10) → (∀ u ∈ us.tail, IsColumn u) →
    ∃ us' e carry', mulRow d xs carry (us ++ v :: vs) = (carry', us' ++ (v + e) :: vs) ∧
      RowLeft d xs carry us us' e carry' := by
  induction xs with
  | nil =>
    intro us carry v vs _ hlen hcarry _ _
    obtain rfl : us = [] := List.length_eq_zero_iff.mp hlen
    refine ⟨[], 0, carry, by rw [add_zero]; rfl, rfl, by simp, Or.inl rfl, ?_, hcarry, ?_, ?_⟩
    · simp
    · simp
    · intro h
      cases h
  | cons x xs ih =>
    intro us carry v vs hx hlen hcarry hhead htail
    rw [digits_cons] at hx
    obtain ⟨hx, hxs⟩ := hx
    cases us with
    | nil => cases hlen
    | cons u us =>
      cases us with
      | nil =>
        obtain rfl : xs = [] := List.length_eq_zero_iff.mp (by simpa using hlen.symm)
        obtain ⟨out, b, carry', hrow, hout, hb, hrange, hcarry', hvalue, halone⟩ :=
          mulRow_cons [] v vs hd hx hcarry (hhead u rfl)
        refine ⟨[out], b, carry', hrow, rfl, by simpa using hout, hb, ?_, hrange, ?_, ?_⟩
        · simpa using hcarry'
        · simpa using hvalue
        · intro h
          exact halone (by simpa using h)
      | cons w us =>
        obtain ⟨out, b, next, hrow, hout, hb, hrange, hnext, hvalue, _⟩ :=
          mulRow_cons xs w (us ++ v :: vs) hd hx hcarry (hhead u rfl)
        obtain ⟨us', e, carry', hrest, hleft⟩ := @ih ((w + b) :: us) next v vs hxs
          (by simpa using hlen) hrange
          (by
            intro u' h
            obtain rfl : w + b = u' := by simpa using h
            have hw : IsColumn w := htail w List.mem_cons_self
            unfold IsColumn at hw
            omega)
          (fun u' h => htail u' (List.mem_cons_of_mem w h))
        refine ⟨out :: us', e, carry', ?_, ?_, ?_, hleft.behind, ?_, hleft.carry_range, ?_, ?_⟩
        · rw [List.cons_append, List.cons_append, hrow, ← List.cons_append, hrest]
          rfl
        · rw [List.length_cons, hleft.length, List.length_cons]
        · exact List.forall_mem_cons.mpr ⟨hout, hleft.columns⟩
        · rw [hleft.carry_eq, total_cons, List.length_cons, carry_cons, hnext]
        · have hrow_value := hleft.value
          rw [sumOf_cons] at hrow_value
          rw [total_cons, List.length_cons, sumOf_cons, sumOf_cons, sumOf_cons, pow_succ]
          linear_combination 10 * hrow_value + hvalue
        · intro h
          cases h

/-! ### All rows -/

/-- The carry behind the rows for `ds`, when each has `n` columns and the other number is `X`. -/
def rowsCarry (X : Int) (n : Nat) : List Byte → Int → Int
  | [], carry => carry
  | d :: ds, carry => rowsCarry X n ds ((digitSum d * X + carry) / 10 ^ n)

/-- What gets lost when the carry of a row goes into the first column of the next one. -/
def rowsLoss (X : Int) (n : Nat) : List Byte → Int → Int
  | [], _ => 0
  | [_], _ => 0
  | d :: d' :: ds, carry =>
    (digitSum d * X + carry) / 10 ^ n * (10 ^ n - 10) +
      10 * rowsLoss X n (d' :: ds) ((digitSum d * X + carry) / 10 ^ n)

/-- What the rows leave: digits, a column behind them, and a carry that belongs to that column. -/
structure RowsLeft (X : Int) (n : Nat) (ds : List Byte) (carry : Int) (us low : List Int)
    (e carry' : Int) : Prop where
  length : low.length = ds.length + n - 1
  columns : ∀ u ∈ low, IsColumn u
  behind : e = 0 ∨ e = 1
  carry_eq : carry' = rowsCarry X n ds carry
  carry_range : 0 ≤ carry' ∧ carry' ≤ 8
  value : sumOf low + 10 ^ low.length * (e + carry') =
    sumOf us + carry + X * total ds - rowsLoss X n ds carry
  alone : us = [0] → e = 0

section Rows

variable {xs ds : List Byte} {us t low : List Int} {d : Byte} {h e e' carry next carry' : Int}

theorem RowsLeft.single (hleft : RowLeft (digitSum d) xs carry us low e carry')
    (hlen : us.length = xs.length) : RowsLeft (total xs) xs.length [d] carry us low e carry' := by
  refine ⟨?_, hleft.columns, hleft.behind, hleft.carry_eq, hleft.carry_range, ?_, hleft.alone⟩
  · rw [hleft.length, List.length_singleton]
    omega
  · have hvalue := hleft.value
    rw [hleft.length, hvalue, total_cons, total_nil, rowsLoss]
    ring

/-- The first column of a row stays, the others are the first ones of the next row. -/
theorem RowsLeft.cons (hleft : RowLeft (digitSum d) xs carry us (h :: t) e next)
    (hlen : us.length = xs.length) (hne : ds ≠ [])
    (hrest : RowsLeft (total xs) xs.length ds next (t ++ [e]) low e' carry') :
    RowsLeft (total xs) xs.length (d :: ds) carry us (h :: low) e' carry' := by
  have hlength := hleft.length
  rw [List.length_cons] at hlength
  refine ⟨?_, ?_, hrest.behind, ?_, hrest.carry_range, ?_, ?_⟩
  · have hpos := List.length_pos_iff.mpr hne
    have hrest_length := hrest.length
    rw [List.length_cons, List.length_cons, hrest_length]
    omega
  · exact List.forall_mem_cons.mpr ⟨(List.forall_mem_cons.mp hleft.columns).1, hrest.columns⟩
  · have hrest_carry := hrest.carry_eq
    rw [hleft.carry_eq] at hrest_carry
    exact hrest_carry
  · have hrow_value := hleft.value
    have hrest_value := hrest.value
    obtain ⟨d', ds', rfl⟩ := List.exists_cons_of_ne_nil hne
    rw [sumOf_append, sumOf_cons, sumOf_nil] at hrest_value
    rw [sumOf_cons, ← hlength, pow_succ] at hrow_value
    rw [← hlength] at hrest_value
    rw [sumOf_cons, List.length_cons, total_cons, rowsLoss, ← hleft.carry_eq, ← hlength, pow_succ,
      pow_succ]
    linear_combination 10 * hrest_value + hrow_value
  · intro hus0
    have he := hleft.alone hus0
    rw [← hlen, hus0, List.length_singleton] at hlength
    obtain rfl : t = [] := List.length_eq_zero_iff.mp (by omega)
    apply hrest.alone
    rw [he]
    rfl

end Rows

theorem mulRows_left {xs : List Byte} (hx : Digits xs) (hne : xs ≠ []) {ds : List Byte} :
    ∀ {us : List Int} {carry : Int} (vs : List Int), Digits ds → ds ≠ [] →
      us.length = xs.length → (0 ≤ carry ∧ carry ≤ 8) → (∀ u ∈ us, IsColumn u) →
      ∃ low e carry', mulRows xs ds carry (us ++ (List.replicate ds.length 0 ++ vs)) =
          (carry', low ++ e :: vs) ∧
        RowsLeft (total xs) xs.length ds carry us low e carry' := by
  induction ds with
  | nil =>
    intro us carry vs _ h
    exact absurd rfl h
  | cons d ds ih =>
    intro us carry vs hds _ hlen hcarry hus
    rw [digits_cons] at hds
    obtain ⟨hd, hds⟩ := hds
    have hoff : digitSum d = offset d := by rw [digitSum_of_isDigit hd, offset_of_isDigit hd]
    have hdr : 0 ≤ digitSum d ∧ digitSum d ≤ 9 := by
      have hlt := digitOf_lt hd
      rw [digitSum_of_isDigit hd]
      omega
    have hhead : ∀ u, us.head? = some u → 0 ≤ u ∧ u ≤ 10 := by
      intro u h
      have hu : IsColumn u := hus u (List.mem_of_mem_head? h)
      unfold IsColumn at hu
      omega
    obtain ⟨us', e, next, hrow, hleft⟩ := row_left (digitSum d) hdr 0
      (List.replicate ds.length 0 ++ vs) hx hlen hcarry hhead
      (fun u h => hus u (List.mem_of_mem_tail h))
    rw [zero_add] at hrow
    obtain ⟨h, t, rfl⟩ : ∃ h t, us' = h :: t := by
      apply List.exists_cons_of_ne_nil
      rw [← List.length_pos_iff, hleft.length]
      exact List.length_pos_iff.mpr hne
    have hrows : mulRows xs (d :: ds) carry (us ++ (List.replicate (d :: ds).length 0 ++ vs)) =
        ((mulRows xs ds next (t ++ e :: (List.replicate ds.length 0 ++ vs))).1,
          h :: (mulRows xs ds next (t ++ e :: (List.replicate ds.length 0 ++ vs))).2) := by
      rw [List.length_cons, List.replicate_succ, List.cons_append, mulRows, ← hoff, hrow]
      rfl
    rw [hrows]
    rcases eq_or_ne ds [] with rfl | hds_ne
    · exact ⟨h :: t, e, next, rfl, RowsLeft.single hleft hlen⟩
    · have hlength : (t ++ [e]).length = xs.length := by
        have hlength := hleft.length
        rw [List.length_cons] at hlength
        simpa using hlength
      have hcolumns : ∀ u ∈ t ++ [e], IsColumn u := by
        intro u hu
        rw [List.mem_append, List.mem_singleton] at hu
        rcases hu with hu | rfl
        · exact (List.forall_mem_cons.mp hleft.columns).2 u hu
        · have hbehind := hleft.behind
          unfold IsColumn
          omega
      obtain ⟨low, e', carry', hrest, hrest_left⟩ :=
        @ih (t ++ [e]) next vs hds hds_ne hlength hleft.carry_range hcolumns
      rw [List.append_assoc, List.singleton_append] at hrest
      exact ⟨h :: low, e', carry', by rw [hrest]; rfl,
        RowsLeft.cons hleft hlen hds_ne hrest_left⟩

/-! ### What gets lost -/

section Loss

variable {X : Int} {n : Nat}

theorem rowsLoss_nonneg (hX : 0 ≤ X) (hn : 1 ≤ n) {ds : List Byte} :
    ∀ {carry : Int}, 0 ≤ carry → Digits ds → 0 ≤ rowsLoss X n ds carry := by
  induction ds with
  | nil =>
    intro _ _ _
    exact le_refl 0
  | cons d ds ih =>
    intro carry hcarry hds
    rw [digits_cons] at hds
    cases ds with
    | nil => exact le_refl 0
    | cons d' ds =>
      have hd : 0 ≤ digitSum d := by
        rw [digitSum_of_isDigit hds.1]
        omega
      have hnext : 0 ≤ (digitSum d * X + carry) / 10 ^ n :=
        Int.ediv_nonneg (by positivity) (by positivity)
      have hpow : (10 : Int) ^ 1 ≤ 10 ^ n := pow_le_pow_right₀ (by decide) hn
      have hgap : (0 : Int) ≤ 10 ^ n - 10 := by linarith
      have hrest := ih hnext hds.2
      rw [rowsLoss]
      positivity

/-- In a single column nothing gets lost: the next column is that of the next row. -/
theorem rowsLoss_one (ds : List Byte) : ∀ carry : Int, rowsLoss X 1 ds carry = 0 := by
  induction ds with
  | nil =>
    intro carry
    rfl
  | cons d ds ih =>
    intro carry
    cases ds with
    | nil => rfl
    | cons d' ds =>
      rw [rowsLoss, ih]
      ring

/-- In more columns, exactly a carry behind any row but the last. -/
theorem rowsLoss_eq_zero_iff (hX : 0 ≤ X) (hn : 1 < n) {ds : List Byte} (hds : Digits ds) :
    rowsLoss X n ds 0 = 0 ↔ ∀ d ∈ ds.dropLast, digitSum d * X < 10 ^ n := by
  induction ds with
  | nil => simp [rowsLoss]
  | cons d ds ih =>
    rw [digits_cons] at hds
    cases ds with
    | nil => simp [rowsLoss]
    | cons d' ds =>
      have hd : 0 ≤ digitSum d := by
        rw [digitSum_of_isDigit hds.1]
        omega
      have hprod : 0 ≤ digitSum d * X := mul_nonneg hd hX
      have hnext : 0 ≤ digitSum d * X / 10 ^ n := Int.ediv_nonneg hprod (by positivity)
      have hsmall : digitSum d * X / 10 ^ n = 0 ↔ digitSum d * X < 10 ^ n := by
        constructor
        · intro h
          have hlt := Int.lt_ediv_add_one_mul_self (digitSum d * X) (show (0 : Int) < 10 ^ n by positivity)
          rwa [h, zero_add, one_mul] at hlt
        · exact Int.ediv_eq_zero_of_lt hprod
      have hpow : (10 : Int) ^ 1 < 10 ^ n := pow_lt_pow_right₀ (by decide) hn
      have hgap : (0 : Int) < 10 ^ n - 10 := by linarith
      rw [rowsLoss, List.dropLast_cons_cons, List.forall_mem_cons, ← hsmall, ← ih hds.2, add_zero]
      constructor
      · intro h
        have hrest := rowsLoss_nonneg hX hn.le hnext hds.2
        have hfirst : 0 ≤ digitSum d * X / 10 ^ n * (10 ^ n - 10) := mul_nonneg hnext hgap.le
        have hzero : digitSum d * X / 10 ^ n = 0 := by
          have hprod0 : digitSum d * X / 10 ^ n * (10 ^ n - 10) = 0 := by linarith
          exact (mul_eq_zero.mp hprod0).resolve_right hgap.ne'
        rw [hzero] at h ⊢
        exact ⟨rfl, by linarith⟩
      · rintro ⟨hzero, hrest⟩
        rw [hzero, hrest]
        ring

/-- Without these carries the last one is that of the last row. -/
theorem rowsCarry_concat {ds : List Byte} (hds : Digits ds) (hX : 0 ≤ X)
    (h : ∀ d ∈ ds, digitSum d * X < 10 ^ n) (d : Byte) :
    rowsCarry X n (ds ++ [d]) 0 = digitSum d * X / 10 ^ n := by
  induction ds with
  | nil => rw [List.nil_append, rowsCarry, rowsCarry, add_zero]
  | cons d' ds ih =>
    rw [digits_cons] at hds
    rw [List.forall_mem_cons] at h
    have hd : 0 ≤ digitSum d' := by
      rw [digitSum_of_isDigit hds.1]
      omega
    rw [List.cons_append, rowsCarry, add_zero,
      Int.ediv_eq_zero_of_lt (mul_nonneg hd hX) h.1]
    exact ih hds.2 h.2

end Loss

/-! ### `str$mul` -/

def Decimal.first (d : Decimal) : Nat := d.digits.head?.elim 0 digitOf

/-- When the product is right: one column, or no row with a carry but the last, and in that one
    all that comes together in the first column of the product; and an exponent that fits. -/
structure MulHolds (a b : Decimal) : Prop where
  rows : a.digits.length = 1 ∨
    (∀ c ∈ b.digits.tail, digitOf c * number a.digits < 10 ^ a.digits.length) ∧
      number a.digits * number b.digits / 10 ^ (a.digits.length + b.digits.length - 1) =
        b.first * number a.digits / 10 ^ a.digits.length
  fits : Fits (a.value * b.value)

/-- The columns of the product and its last carry. -/
theorem mulRows_spec {a b : Decimal} (ha : a.Operand) (hb : b.Operand) :
    ∃ low e carry', mulRows a.digits.reverse b.digits.reverse 0
          (List.replicate (a.digits.length + b.digits.length + 1) 0) =
        (carry', low ++ [e, 0]) ∧
      RowsLeft (number a.digits) a.digits.length b.digits.reverse 0
        (List.replicate a.digits.length 0) low e carry' := by
  have hcells : List.replicate (a.digits.length + b.digits.length + 1) (0 : Int) =
      List.replicate a.digits.length 0 ++
        (List.replicate b.digits.reverse.length 0 ++ [0]) := by
    rw [List.length_reverse, ← List.append_assoc, List.replicate_append_replicate,
      List.replicate_succ']
  have hzeros : ∀ u ∈ List.replicate a.digits.length (0 : Int), IsColumn u := by
    intro u hu
    rw [List.eq_of_mem_replicate hu]
    unfold IsColumn
    decide
  have hcarry : (0 : Int) ≤ 0 ∧ (0 : Int) ≤ 8 := by decide
  obtain ⟨low, e, carry', hrows, hleft⟩ := mulRows_left (digits_reverse.mpr ha.digits)
    (by simpa using ha.nonempty) [0] (digits_reverse.mpr hb.digits) (by simpa using hb.nonempty)
    (by simp) hcarry hzeros
  rw [total_reverse ha.digits, List.length_reverse] at hleft
  exact ⟨low, e, carry', by rw [hcells, hrows], hleft⟩

theorem sumOf_zeros (n : Nat) : sumOf (List.replicate n 0) = 0 := by
  induction n with
  | zero => rfl
  | succ n ih => rw [List.replicate_succ, sumOf_cons, ih, mul_zero, add_zero]

theorem sumOf_range {cs : List Int} (h : ∀ c ∈ cs, IsColumn c) :
    0 ≤ sumOf cs ∧ sumOf cs < 10 ^ cs.length := by
  refine (valueOf_eq_zero_iff (by decide) ?_).1
  intro c hc
  have hcolumn := h c hc
  unfold IsColumn at hcolumn
  omega

/-- The rows but the last, in terms of the number. -/
theorem rows_small_iff {a b : Decimal} (hb : b.Operand) :
    (∀ d ∈ b.digits.reverse.dropLast, digitSum d * (number a.digits : Int) < 10 ^ a.digits.length) ↔
      ∀ c ∈ b.digits.tail, digitOf c * number a.digits < 10 ^ a.digits.length := by
  have hmem : ∀ c, c ∈ b.digits.reverse.dropLast ↔ c ∈ b.digits.tail := by
    intro c
    rw [List.dropLast_reverse, List.mem_reverse]
  constructor
  · intro h c hc
    have hlt := h c ((hmem c).mpr hc)
    rw [digitSum_of_isDigit (digits_tail hb.digits c hc)] at hlt
    exact_mod_cast hlt
  · intro h c hc
    have htail := (hmem c).mp hc
    rw [digitSum_of_isDigit (digits_tail hb.digits c htail)]
    exact_mod_cast h c htail

/-- The last carry, when it is the only one. -/
theorem rowsCarry_first {a b : Decimal} (hb : b.Operand)
    (h : ∀ c ∈ b.digits.tail, digitOf c * number a.digits < 10 ^ a.digits.length) :
    rowsCarry (number a.digits) a.digits.length b.digits.reverse 0 =
      ((b.first * number a.digits / 10 ^ a.digits.length : Nat) : Int) := by
  have hrows := (rows_small_iff hb).mpr h
  have hdigits := hb.digits
  obtain ⟨c, cs, hcs⟩ := List.exists_cons_of_ne_nil hb.nonempty
  rw [hcs] at hrows hdigits
  rw [digits_cons] at hdigits
  rw [List.reverse_cons, List.dropLast_concat] at hrows
  have hfirst : digitSum c = b.first := by
    rw [digitSum_of_isDigit hdigits.1, Decimal.first, hcs]
    rfl
  rw [hcs, List.reverse_cons, rowsCarry_concat (digits_reverse.mpr hdigits.2)
    (Int.natCast_nonneg _) hrows, hfirst]
  push_cast
  rfl

theorem rows_value_iff {a b : Decimal} (ha : a.Operand) (hb : b.Operand) {low : List Int}
    {e carry' : Int} (h : RowsLeft (number a.digits) a.digits.length b.digits.reverse 0
      (List.replicate a.digits.length 0) low e carry') :
    sumOf low + 10 ^ low.length * carry' = number a.digits * number b.digits ↔
      a.digits.length = 1 ∨
        (∀ c ∈ b.digits.tail, digitOf c * number a.digits < 10 ^ a.digits.length) ∧
          number a.digits * number b.digits / 10 ^ (a.digits.length + b.digits.length - 1) =
            b.first * number a.digits / 10 ^ a.digits.length := by
  have hvalue := h.value
  have hlength : low.length = a.digits.length + b.digits.length - 1 := by
    rw [h.length, List.length_reverse, add_comm]
  rw [sumOf_zeros, total_reverse hb.digits, zero_add, zero_add] at hvalue
  have hpos : 1 ≤ a.digits.length := List.length_pos_iff.mpr ha.nonempty
  by_cases hone : a.digits.length = 1
  · refine iff_of_true ?_ (Or.inl hone)
    have he : e = 0 := by
      apply h.alone
      rw [hone]
      rfl
    rw [hone, rowsLoss_one, he] at hvalue
    linear_combination hvalue
  · have hX : (0 : Int) ≤ number a.digits := Int.natCast_nonneg _
    have hdigits := digits_reverse.mpr hb.digits
    have hloss := rowsLoss_eq_zero_iff hX (show 1 < a.digits.length by omega) hdigits
    rw [rows_small_iff hb] at hloss
    have hloss0 := rowsLoss_nonneg hX hpos (le_refl 0) hdigits
    have hrange := sumOf_range h.columns
    have hpow : (0 : Int) < 10 ^ low.length := by positivity
    rw [or_iff_right hone]
    constructor
    · intro hproduct
      have he0 : 0 ≤ 10 ^ low.length * e := by
        rcases h.behind with rfl | rfl <;> positivity
      have hzero : rowsLoss (number a.digits) a.digits.length b.digits.reverse 0 = 0 := by
        linarith
      have hrows := hloss.mp hzero
      refine ⟨hrows, ?_⟩
      have hcarry := h.carry_eq
      rw [rowsCarry_first hb hrows] at hcarry
      have htop : (number a.digits * number b.digits : Int) / 10 ^ low.length = carry' := by
        rw [← hproduct, Int.add_mul_ediv_left _ _ hpow.ne', Int.ediv_eq_zero_of_lt hrange.1 hrange.2,
          zero_add]
      rw [hcarry, hlength] at htop
      exact_mod_cast htop
    · rintro ⟨hrows, htop⟩
      have hcarry := h.carry_eq
      rw [rowsCarry_first hb hrows, ← htop] at hcarry
      push_cast at hcarry
      rw [hloss.mpr hrows, sub_zero] at hvalue
      have hboth : (number a.digits * number b.digits : Int) / 10 ^ low.length = e + carry' := by
        rw [← hvalue, Int.add_mul_ediv_left _ _ hpow.ne', Int.ediv_eq_zero_of_lt hrange.1 hrange.2,
          zero_add]
      have he : e = 0 := by
        rw [hlength, ← hcarry] at hboth
        linarith
      rw [he, zero_add] at hvalue
      exact hvalue

/-- The digits that come out of the columns. -/
theorem number_columns {cs : List Int} (h : ∀ c ∈ cs, IsColumn c) :
    Digits (cs.reverse.map toChr) ∧ (number (cs.reverse.map toChr) : Int) = sumOf cs := by
  induction cs with
  | nil => exact ⟨digits_nil, rfl⟩
  | cons c cs ih =>
    obtain ⟨hc, hcs⟩ := List.forall_mem_cons.mp h
    obtain ⟨hdigits, hnumber⟩ := ih hcs
    have hchr : IsDigit (toChr c) := isDigit_toChr hc.1 (by have := hc.2; omega)
    have hdigit : (digitOf (toChr c) : Int) = c := by
      rw [← digitSum_of_isDigit hchr, digitSum_toChr hc.1 (by have := hc.2; omega)]
    rw [List.reverse_cons, List.map_append, List.map_singleton]
    constructor
    · exact digits_append.mpr ⟨hdigits, digits_cons.mpr ⟨hchr, digits_nil⟩⟩
    · rw [number_concat, sumOf_cons]
      push_cast
      rw [hdigit, hnumber]
      ring

/-- The columns with the last carry, and the one above it. -/
theorem RowsLeft.columns_all {X : Int} {n : Nat} {ds : List Byte} {carry e carry' : Int}
    {us low : List Int} (h : RowsLeft X n ds carry us low e carry') :
    ∀ u ∈ low ++ [carry', 0], IsColumn u := by
  have hcarry := h.carry_range
  intro u hu
  rw [List.mem_append] at hu
  rcases hu with hu | hu
  · exact h.columns u hu
  · unfold IsColumn
    rcases List.mem_cons.mp hu with rfl | hu
    · omega
    · rw [List.mem_singleton.mp hu]
      decide

/-- What `str$mul` returns. -/
theorem strMul_spec {a b : Decimal} (ha : a.Operand) (hb : b.Operand)
    (hlen : a.digits.length + b.digits.length ≤ 65534) (c : Decimal) (hc : 2 ≤ c.digits.length) :
    ∃ d low e carry', strMul a b c = .ok (strNormal, d) ∧ d.Canonical ∧
      RowsLeft (number a.digits) a.digits.length b.digits.reverse 0
        (List.replicate a.digits.length 0) low e carry' ∧
      d.Denotes (signed (if a.sign = b.sign then 0 else 1) (sumOf low + 10 ^ low.length * carry'))
        (a.exp.toInt + b.exp.toInt) := by
  obtain ⟨low, e, carry', hrows, hleft⟩ := mulRows_spec ha hb
  obtain ⟨t, hcopy⟩ : ∃ t, strcpyZero c.digits = .ok t := ⟨_, strcpyZero_ok hc⟩
  have hvalid : signsValid a b = true := by
    simp only [signsValid, decide_eq_true_eq]
    exact ⟨ha.sign, hb.sign⟩
  have hapos : 0 < a.digits.length := List.length_pos_iff.mpr ha.nonempty
  have hbpos : 0 < b.digits.length := List.length_pos_iff.mpr hb.nonempty
  have hlowlen : low.length = a.digits.length + b.digits.length - 1 := by
    rw [hleft.length, List.length_reverse, add_comm]
  have hs1 : a.len.toNat = a.digits.length := Decimal.toNat_len (by omega)
  have hs2 : b.len.toNat = b.digits.length := Decimal.toNat_len (by omega)
  have hset : (low ++ [e, 0]).set (a.digits.length + b.digits.length - 1) carry' =
      low ++ [carry', 0] := by
    rw [← hlowlen]
    simp
  obtain ⟨hdigits, hnumber⟩ := number_columns hleft.columns_all
  have hcount : ((low ++ [carry', 0]).reverse.map toChr).length =
      a.digits.length + b.digits.length + 1 := by
    simp only [List.length_map, List.length_reverse, List.length_append, List.length_cons,
      List.length_nil]
    omega
  obtain ⟨d, htrim, _, hcanonical, hvalue⟩ := trim_denotes
    (if a.sign = b.sign then 0 else 1)
    (show a.exp + b.exp = BitVec.ofInt 64 (a.exp.toInt + b.exp.toInt) by
      rw [BitVec.ofInt_add, BitVec.ofInt_toInt, BitVec.ofInt_toInt])
    (by rw [← List.length_pos_iff, hcount]; omega) hdigits (by rw [hcount]; omega)
  refine ⟨d, low, e, carry', ?_, hcanonical, hleft, ?_⟩
  · simp only [strMul, hvalid, hcopy, hs1, hs2, columns_load, hrows, not_true_eq_false, if_false,
      bind, Except.bind]
    have hmin : min (a.digits.length + b.digits.length) maxUint16 =
        a.digits.length + b.digits.length := min_eq_left (by rw [maxUint16]; omega)
    have htake : (low ++ [carry', 0]).reverse.take (a.digits.length + b.digits.length + 1) =
        (low ++ [carry', 0]).reverse := by
      apply List.take_of_length_le
      rw [← hcount, List.length_map]
    have hsize : BitVec.ofNat 16 (a.digits.length + b.digits.length) + 1 =
        BitVec.ofNat 16 ((low ++ [carry', 0]).reverse.map toChr).length := by
      rw [hcount, BitVec.ofNat_add _ 1]
      rfl
    have hnormal : ¬ maxUint16 < a.digits.length + b.digits.length := by
      rw [maxUint16]
      omega
    rw [if_neg hbpos.ne', hset, hmin, htake, hsize, fill_short (by rw [hcount]; omega),
      if_neg hnormal]
    simp only [htrim]
    rfl
  · rw [hnumber, sumOf_append, sumOf_cons, sumOf_cons, sumOf_nil] at hvalue
    simpa using hvalue

theorem value_mul {a b : Decimal} (ha : a.Operand) (hb : b.Operand) : a.value * b.value =
    scaled 10 (signed (if a.sign = b.sign then 0 else 1) (number a.digits * number b.digits))
      (a.exp.toInt + b.exp.toInt) := by
  rw [Decimal.value, Decimal.value, scaled_mul (by decide)]
  congr 1
  rcases ha.sign with hsa | hsa <;> rcases hb.sign with hsb | hsb <;> simp [hsa, hsb, signed]

theorem signed_inj {sign : Nat} {m n : Int} : signed sign m = signed sign n ↔ m = n := by
  rcases neg_one_pow_eq_or Int sign with h | h <;> simp [signed, h]

/-- **`str$mul`** returns canonical digits, and they are the product's if and only if nothing gets
    lost between the rows and behind the last one. -/
theorem strMul_exact_iff (a b c : Decimal) (ha : a.Operand) (hb : b.Operand)
    (hlen : a.digits.length + b.digits.length ≤ 65534) (hc : 2 ≤ c.digits.length) :
    ∃ d, strMul a b c = .ok (strNormal, d) ∧ d.Canonical ∧
      (d.value = a.value * b.value ↔ MulHolds a b) := by
  obtain ⟨d, low, e, carry', hmul, hcanonical, hleft, hvalue⟩ := strMul_spec ha hb hlen c hc
  refine ⟨d, hmul, hcanonical, ?_⟩
  have hbound : (signed (if a.sign = b.sign then 0 else 1)
      (number a.digits * number b.digits : Int)).natAbs <
        10 ^ (a.digits.length + b.digits.length) := by
    rw [natAbs_signed, Int.natAbs_mul, Int.natAbs_natCast, Int.natAbs_natCast, pow_add]
    exact Nat.mul_lt_mul'' (number_lt ha.digits) (number_lt hb.digits)
  have hexact := hvalue _ _ (by omega) hbound
  rw [← value_mul ha hb, signed_inj, rows_value_iff ha hb hleft] at hexact
  rw [hexact]
  constructor
  · rintro ⟨hrows, hfits⟩
    exact ⟨hrows, hfits⟩
  · intro h
    exact ⟨h.rows, h.fits⟩

/-- 12 * 34 with nothing carried out of its rows. -/
theorem twelve_times_thirty_four :
    ∃ d, strMul ⟨0, 0, [49, 50]⟩ ⟨1, 0, [51, 52]⟩ ⟨0, 0, [48, 48]⟩ = .ok (strNormal, d) ∧
      d.Canonical ∧
      (d.value = Decimal.value ⟨0, 0, [49, 50]⟩ * Decimal.value ⟨1, 0, [51, 52]⟩ ↔
        MulHolds ⟨0, 0, [49, 50]⟩ ⟨1, 0, [51, 52]⟩) :=
  strMul_exact_iff ⟨0, 0, [49, 50]⟩ ⟨1, 0, [51, 52]⟩ ⟨0, 0, [48, 48]⟩
    ⟨Or.inr rfl, List.cons_ne_nil _ _, by decide⟩ ⟨Or.inl rfl, List.cons_ne_nil _ _, by decide⟩
    (by decide) (by decide)

/-- 99 * 99 is said to be 8081: the carry of the first row goes to the wrong column. -/
theorem ninety_nine_squared :
    ¬ ∃ d, strMul ⟨0, 0, [57, 57]⟩ ⟨0, 0, [57, 57]⟩ ⟨0, 0, [48, 48]⟩ = .ok (strNormal, d) ∧
      d.Canonical ∧ d.value = Decimal.value ⟨0, 0, [57, 57]⟩ * Decimal.value ⟨0, 0, [57, 57]⟩ := by
  rintro ⟨d, hd, _, hvalue⟩
  have hresult : strMul ⟨0, 0, [57, 57]⟩ ⟨0, 0, [57, 57]⟩ ⟨0, 0, [48, 48]⟩ =
    .ok (strNormal, ⟨0, 0, [56, 48, 56, 49]⟩) := rfl
  rw [hresult] at hd
  cases hd
  have hleft : Decimal.value ⟨0, 0, [56, 48, 56, 49]⟩ = scaled 10 8081 0 := rfl
  have hnine : Decimal.value ⟨0, 0, [57, 57]⟩ = scaled 10 99 0 := rfl
  rw [hleft, hnine, scaled_mul (by decide), add_zero, scaled_left_inj (by decide)] at hvalue
  exact absurd hvalue (by decide)

end FreeVMS.Rtl.Num
