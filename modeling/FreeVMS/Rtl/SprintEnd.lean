import FreeVMS.Rtl.SprintParts

/-!
# The end of the format

Where every specification of the text is complete, no pass reads behind the text.  A specification that
is cut off goes on there: with an `A` behind the text it ends as an unknown conversion, with a `c` it
takes an argument.
-/

namespace FreeVMS.Rtl.Sprint

/-! ### Complete formats -/

section

variable {e : Env} {fuel k i : Nat} {r : List Byte} {ok : Byte → Prop} {fmt fmt' : Format}

/-- Two formats with the same complete rest. -/
theorem passes_congr (hr : Complete ok r) (h : Holds fmt.c i r) (h' : Holds fmt'.c i r)
    (hend : i + r.length = fmt.lengthTrim) (hend' : i + r.length = fmt'.lengthTrim) (numpr : Int)
    (o : Out) : passes e fuel fmt k i numpr o = passes e fuel fmt' k i numpr o := by
  induction hr generalizing k i numpr o with
  | @text u hu =>
    cases k with
    | zero => rfl
    | succ k =>
      rw [passes_text e fuel k numpr o hu h hend, passes_text e fuel k numpr o hu h' hend']
  | @spec u v rest p hu hp hconv _ ih =>
    cases k with
    | zero => rfl
    | succ k =>
      have hall : (u ++ chr '%' :: v).length = u.length + (v.length + 1) := List.length_append
      obtain ⟨j, hj, hrest, hpass⟩ := pass_spec e fuel hu hp h (by omega) (by omega)
      obtain ⟨j', hj', hrest', hpass'⟩ := pass_spec e fuel hu hp h' (by omega) (by omega)
      obtain rfl : j = j' := by omega
      rw [passes_succ e o (hpass numpr), passes_succ e o (hpass' numpr)]
      cases specPass e fuel u p numpr o with
      | ok r => exact ih hrest hrest' (by omega) (by omega) r.1 r.2
      | error _ => rfl

theorem sprint_congr (hr : Complete ok r) (h : fmt.HasText r) (h' : fmt'.HasText r) (length : Nat) :
    rtlSprint e fuel fmt length = rtlSprint e fuel fmt' length := by
  rw [rtlSprint, rtlSprint, h.1, h'.1]
  split
  · rfl
  · exact passes_congr hr h.2 h'.2 (by rw [h.1, Nat.zero_add]) (by rw [h'.1, Nat.zero_add]) 0 _

end

/-! ### Formats that are cut off -/

theorem complete_or_cutOff (t : List Byte) : Complete (fun _ => True) t ∨ CutOff t := by
  induction hn : t.length using Nat.strong_induction_on generalizing t with
  | _ n ih =>
    by_cases ht : chr '%' ∈ t
    · obtain ⟨u, v, rfl, hu⟩ := List.eq_append_cons_of_mem ht
      cases hp : pieces? v with
      | none => exact .inr (.here hu hp)
      | some r =>
        obtain ⟨-, -, -, hlen⟩ := pieces?_length hp
        have hall : (u ++ chr '%' :: v).length = u.length + (v.length + 1) := List.length_append
        rcases ih r.2.length (by omega) r.2 rfl with hrest | hrest
        · exact .inl (.spec hu hp trivial hrest)
        · exact .inr (.later hu hp hrest)
    · exact .inl (.text ht)

theorem takeWhile_concat {q : Byte → Bool} {x : Byte} (hx : q x = false) (r : List Byte) :
    (r ++ [x]).takeWhile q = r.takeWhile q := by
  induction r with
  | nil => simp [hx]
  | cons y r ih =>
    rw [List.cons_append, List.takeWhile_cons, List.takeWhile_cons, ih]

theorem dropWhile_concat {q : Byte → Bool} {x : Byte} (hx : q x = false) (r : List Byte) :
    (r ++ [x]).dropWhile q = r.dropWhile q ++ [x] := by
  induction r with
  | nil => simp [hx]
  | cons y r ih =>
    rw [List.cons_append, List.dropWhile_cons, List.dropWhile_cons, ih]
    split
    · rfl
    · rfl

section

variable {x : Byte} (hx : IsLetter x)

include hx

theorem widthOf_concat (r : List Byte) :
    widthOf (r ++ [x]) = ((widthOf r).1, (widthOf r).2 ++ [x]) := by
  obtain ⟨-, hdigit, -, -, hstar, -⟩ := hx
  cases r with
  | nil => simp [widthOf, hstar, hdigit]
  | cons y r =>
    rw [List.cons_append, widthOf, widthOf, ← List.cons_append, takeWhile_concat hdigit,
      dropWhile_concat hdigit]
    split
    · rfl
    · split
      · rfl
      · rfl

theorem pointOf_concat (r : List Byte) :
    pointOf (r ++ [x]) = ((pointOf r).1, (pointOf r).2 ++ [x]) := by
  obtain ⟨-, hdigit, hnine, -, hstar, -⟩ := hx
  cases r with
  | nil => simp [pointOf, hstar, hdigit]
  | cons y r =>
    rw [List.cons_append, pointOf, pointOf, ← List.cons_append, takeWhile_concat hnine,
      dropWhile_concat hnine]
    split
    · rfl
    · split
      · rfl
      · rfl

theorem precisionOf_concat (r : List Byte) :
    precisionOf (r ++ [x]) = ((precisionOf r).1, (precisionOf r).2 ++ [x]) := by
  have hpoint := hx.2.2.2.2.2
  cases r with
  | nil => simp [precisionOf, hpoint]
  | cons y r =>
    rw [List.cons_append, precisionOf, precisionOf, pointOf_concat hx]
    split
    · rfl
    · rfl

theorem modifierOf_concat (r : List Byte) :
    modifierOf (r ++ [x]) = ((modifierOf r).1, (modifierOf r).2 ++ [x]) := by
  have hmod := hx.2.2.2.1
  cases r with
  | nil => simp [modifierOf, hmod]
  | cons y r =>
    rw [List.cons_append, modifierOf, modifierOf]
    split
    · rfl
    · rfl

end

/-- A specification that is cut off ends with any letter behind it, and is the same apart from that. -/
theorem pieces?_concat {v : List Byte} (h : pieces? v = none) :
    ∃ p : Pieces, ∀ x, IsLetter x → pieces? (v ++ [x]) = some ({ p with conv := x }, []) := by
  refine ⟨⟨v.takeWhile isFlag, (widthOf (v.dropWhile isFlag)).1,
    (precisionOf (widthOf (v.dropWhile isFlag)).2).1,
    (modifierOf (precisionOf (widthOf (v.dropWhile isFlag)).2).2).1, 0⟩, fun x hx => ?_⟩
  simp only [pieces?] at h
  simp only [pieces?, takeWhile_concat hx.1, dropWhile_concat hx.1, widthOf_concat hx,
    precisionOf_concat hx, modifierOf_concat hx]
  cases hm : (modifierOf (precisionOf (widthOf (v.dropWhile isFlag)).2).2).2 with
  | nil => rfl
  | cons c rest =>
    rw [hm] at h
    cases h

/-! ### What a part takes -/

/-- From the argument `a` on, where more than `n` is left of the output, `m` takes `n` of it, returns
    `v` and leaves off at the argument `b`. -/
def Spends {α : Type} (a n : Nat) (v : α) (b : Nat) (m : Print α) : Prop :=
  ∀ o : Out, o.argPtr = a → n < o.size →
    ∃ o', m o = .ok (v, o') ∧ o'.argPtr = b ∧ o'.size = o.size - n

/-- What is taken does not depend on the output. -/
def Spending (α : Type) (m : Print α) : Prop := ∀ a, ∃ n v b, Spends a n v b m

/-- All operations are defined, and a `double` is less than one. -/
structure Env.Tame (e : Env) : Prop where
  overflow (x : Int) : (e.overflow.int x).isSome ∧ (e.overflow.long x).isSome
  toUlong (x : BitVec 64) : (e.floating.toUlong x).isSome
  lessThanOne (x : BitVec 64) : e.floating.oneOrMore x = false

section

variable {e : Env} {fuel : Nat}

theorem Prints.spending {α : Type} {m : Print α} (h : ∀ a, ∃ t v b, Prints a t v b m) :
    Spending α m := by
  intro a
  obtain ⟨t, v, b, hm⟩ := h a
  refine ⟨t.length, v, b, fun o ha hsize => ⟨_, hm o ha (Nat.le_of_lt hsize), rfl, ?_⟩⟩
  exact Out.print_size

theorem pure_spending {α : Type} (x : α) : Spending α (pure x) :=
  Prints.spending fun a => ⟨_, _, _, .pure x a⟩

theorem defined_spending {α : Type} {x : Option α} (h : x.isSome) : Spending α (defined x) := by
  obtain ⟨y, rfl⟩ := Option.isSome_iff_exists.mp h
  exact pure_spending y

theorem Spends.bind {α β : Type} {a n b n' d : Nat} {v : α} {w : β} {m : Print α}
    {f : α → Print β} (h : Spends a n v b m) (hf : Spends b n' w d (f v)) :
    Spends a (n + n') w d (m >>= f) := by
  intro o ha hsize
  obtain ⟨o', hrun, hb, hsize'⟩ := h o ha (by omega)
  obtain ⟨o'', hrun', hd, hsize''⟩ := hf o' hb (by omega)
  refine ⟨o'', ?_, hd, by omega⟩
  show (m o >>= fun r => f r.1 r.2) = _
  rw [hrun]
  exact hrun'

theorem putch_spends (ch : Byte) (a : Nat) : Spends a 1 () a (putch ch) := by
  rintro o rfl hsize
  exact ⟨_, putch_prints ch _ o rfl (Nat.le_of_lt hsize), rfl, rfl⟩

theorem pure_spends {α : Type} (v : α) (a : Nat) : Spends a 0 v a (pure v) := by
  rintro o rfl _
  exact ⟨o, rfl, rfl, rfl⟩

theorem nextArg_spends (a : Nat) : Spends a 0 (e.arg a) (a + 1) (nextArg e) := by
  rintro o rfl hsize
  exact ⟨_, rfl, rfl, rfl⟩

theorem putArg_spends (a : Nat) : Spends a 1 () (a + 1) (putArg e) := by
  rintro o rfl hsize
  have hboth : Spends o.argPtr (0 + 1) () (o.argPtr + 1)
      (do let a ← nextArg e; putch (a.int.setWidth 8)) :=
    (nextArg_spends o.argPtr).bind (putch_spends _ _)
  rw [putArg, if_neg (by omega)]
  exact hboth o rfl hsize

theorem closed_spending (h : e.Tame) : Closed e Spending where
  pure := pure_spending
  bind {α β m f} hm hf := by
    intro a
    obtain ⟨n, v, b, hn⟩ := hm a
    obtain ⟨n', w, d, hn'⟩ := hf v b
    exact ⟨_, _, _, hn.bind hn'⟩
  putch ch a := ⟨_, _, _, putch_spends ch a⟩
  nextArg a := ⟨_, _, _, nextArg_spends a⟩
  putArg a := ⟨_, _, _, putArg_spends a⟩
  int x := Closed.ite (fun _ => pure_spending x) fun _ => defined_spending (h.overflow x).1
  long x := Closed.ite (fun _ => pure_spending x) fun _ => defined_spending (h.overflow x).2

theorem floatClosed_spending (h : e.Tame) (hfuel : 0 < fuel) : FloatClosed e fuel Spending where
  toUlong fval := defined_spending (h.toUlong fval)
  fraction fval := by
    cases fuel with
    | zero => exact absurd hfuel (Nat.lt_irrefl 0)
    | succ fuel =>
      rw [fraction, if_neg (Bool.not_eq_true _ ▸ h.lessThanOne fval)]
      exact pure_spending fval

theorem textPass_spends {u : List Byte} (hfuel : u.length < fuel) (a : Nat) :
    Spends a u.length () a (textPass fuel u) := by
  have hsize : Spends a 0 () a sizeTest := by
    rintro o rfl hsize
    rw [sizeTest, if_neg (by omega)]
    exact ⟨_, rfl, rfl, rfl⟩
  have hcopy : Spends a u.length () a (copyText fuel u) := by
    induction u generalizing fuel with
    | nil =>
      cases fuel with
      | zero => exact absurd hfuel (Nat.lt_irrefl 0)
      | succ fuel =>
        rintro o rfl _
        exact ⟨_, rfl, rfl, rfl⟩
    | cons c u ih =>
      cases fuel with
      | zero => exact absurd hfuel (Nat.not_lt_zero _)
      | succ fuel =>
        rintro o rfl hlt
        rw [List.length_cons] at hlt ⊢
        obtain ⟨o', hrun, hb, hsize'⟩ := ih (Nat.lt_of_succ_lt_succ hfuel)
          (o.store o.strPtr c) rfl (show u.length < o.size - 1 by omega)
        refine ⟨o', ?_, hb, ?_⟩
        · rw [← hrun]
          exact if_neg (by omega)
        · rw [hsize']
          show o.size - 1 - u.length = _
          omega
  have hall : Spends a (0 + u.length) () a (textPass fuel u) := hsize.bind hcopy
  rwa [Nat.zero_add] at hall

end

/-! ### What is read behind the end -/

/-- `x` behind the text, and the letter `A` from there on. -/
structure Format.Goes (fmt : Format) (x : Byte) : Prop where
  next : fmt.c fmt.lengthTrim = x
  tail (i : Nat) : fmt.lengthTrim < i → fmt.c i = chr 'A'

section

variable {e : Env} {fuel k i : Nat} {fmt fmtA fmtC : Format} {x : Byte} {t : List Byte}

theorem Format.Goes.holds (h : fmt.Goes x) (hholds : Holds fmt.c i t)
    (hend : i + t.length = fmt.lengthTrim) : Holds fmt.c i (t ++ [x]) := by
  rw [holds_append, hend]
  exact ⟨hholds, h.next, trivial⟩

/-- The letters fill what is left of the output. -/
theorem copy_tail (h : fmt.Goes x) (hi : fmt.lengthTrim < i) (o : Out) (hk : o.size < k) :
    ∃ o', copy fmt k i o = .error (.done o') ∧ o'.argPtr = o.argPtr := by
  induction k generalizing i o with
  | zero => exact absurd hk (Nat.not_lt_zero _)
  | succ k ih =>
    have hc : fmt.c i ≠ chr '%' := by
      rw [h.tail i hi]
      decide
    rw [copy, if_neg hc]
    by_cases hsize : o.size = 0
    · exact ⟨o, if_pos (.inl hsize), rfl⟩
    · obtain ⟨o', hrun, harg⟩ := ih (i := i + 1) (Nat.lt_succ_of_lt hi) (o.store o.strPtr (fmt.c i))
        (show o.size - 1 < k by omega)
      refine ⟨o', ?_, harg⟩
      rw [← hrun]
      exact if_neg (not_or.mpr ⟨hsize, Nat.ne_of_gt hi⟩)

theorem passes_tail (h : fmt.Goes x) (hi : fmt.lengthTrim < i) (numpr : Int) (o : Out)
    (hfuel : o.size < fuel) :
    ∃ o', passes e fuel fmt (k + 1) i numpr o = .done o' ∧ o'.argPtr = o.argPtr := by
  by_cases hsize : o.size = 0
  · refine ⟨o, ?_, rfl⟩
    simp [passes, pass, sizeTest, hsize, bind, StateT.bind, Except.bind, toDone]
  · obtain ⟨o', hrun, harg⟩ := copy_tail h hi o hfuel
    refine ⟨o', ?_, harg⟩
    simp [passes, pass, sizeTest, hsize, hrun, bind, StateT.bind, Except.bind]

theorem eval_conv (p : Pieces) (x : Byte) :
    ({ p with conv := x } : Pieces).eval e fuel =
      (do let s ← p.eval e fuel; return { s with conv := x }) := by
  simp only [Pieces.eval, bind_assoc, pure_bind]

/-- An unknown conversion character is printed behind a `%`. -/
theorem unknown_spends (s : Spec) (numpr : Int) (a : Nat) :
    Spends a 2 numpr a (conversion e fuel { s with conv := chr 'A' } numpr) := by
  have hconv : conversion e fuel { s with conv := chr 'A' } numpr =
      (do putch (chr '%'); putch (chr 'A'); return numpr) := by
    simp +decide [conversion]
  have hend : Spends a (1 + 0) numpr a (do putch (chr 'A'); return numpr) :=
    (putch_spends _ a).bind (pure_spends numpr a)
  have hall : Spends a (1 + (1 + 0)) numpr a (do putch (chr '%'); putch (chr 'A'); return numpr) :=
    (putch_spends _ a).bind hend
  rw [hconv]
  exact hall

theorem char_spends (s : Spec) (numpr : Int) (a : Nat) :
    Spends a 1 numpr (a + 1) (conversion e fuel { s with conv := chr 'c' } numpr) := by
  have hconv : conversion e fuel { s with conv := chr 'c' } numpr =
      (do putArg e; return numpr) := by
    simp +decide [conversion]
  have hall : Spends a (1 + 0) numpr (a + 1) (do putArg e; return numpr) :=
    (putArg_spends a).bind (pure_spends numpr _)
  rw [hconv]
  exact hall

/-- A pass over the pieces `p` with another conversion character. -/
theorem specPass_spends {u : List Byte} {p : Pieces} {s : Spec} {numpr : Int} {a n b n' d : Nat}
    (hfuel : u.length < fuel) (heval : Spends a n s b (p.eval e fuel)) (x : Byte)
    (hconv : Spends b n' numpr d (conversion e fuel { s with conv := x } numpr)) :
    Spends a (u.length + (n + n')) numpr d (specPass e fuel u { p with conv := x } numpr) := by
  have hspec : Spends a (n + n') numpr d (do
      let s ← p.eval e fuel
      conversion e fuel { s with conv := x } numpr) := heval.bind hconv
  have hall : specPass e fuel u { p with conv := x } numpr = (do
      textPass fuel u
      let s ← p.eval e fuel
      conversion e fuel { s with conv := x } numpr) := by
    simp only [specPass, eval_conv, bind_assoc, pure_bind]
  rw [hall]
  exact (textPass_spends hfuel a).bind hspec

/-- A pass that ends behind the text is the last one that takes arguments. -/
theorem Spends.run_tail {m : Print Int} {a n b j : Nat} {v numpr : Int} (h : Spends a n v b m)
    (hgoes : fmt.Goes x) (hj : fmt.lengthTrim < j)
    (hpass : pass e fuel fmt i numpr = do let numpr ← m; return (j, numpr)) {o : Out}
    (ha : o.argPtr = a) (hsize : n < o.size) (hfuel : o.size < n + fuel) :
    ∃ o', passes e fuel fmt (k + 2) i numpr o = .done o' ∧ o'.argPtr = b := by
  obtain ⟨o₁, hrun, hb, hsize₁⟩ := h o ha hsize
  obtain ⟨o₂, hdone, harg⟩ : ∃ o₂, passes e fuel fmt (k + 1) j v o₁ = .done o₂ ∧
      o₂.argPtr = o₁.argPtr := passes_tail hgoes hj v o₁ (by omega)
  refine ⟨o₂, ?_, harg.trans hb⟩
  rw [passes_succ e o hpass, hrun]
  exact hdone

/-- With a `c` behind the text one argument more is taken than with an `A`. -/
theorem cutOff_apart (fuel k : Nat) (he : e.Tame) (hcut : CutOff t) (hA : fmtA.Goes (chr 'A'))
    (hC : fmtC.Goes (chr 'c')) (hholdsA : Holds fmtA.c i t) (hholdsC : Holds fmtC.c i t)
    (hendA : i + t.length = fmtA.lengthTrim) (hendC : i + t.length = fmtC.lengthTrim)
    (hfuel : t.length + 2 < fuel) (hk : t.length < k) (numpr : Int) (a : Nat) :
    ∃ n b, 0 < n ∧ ∀ o : Out, o.argPtr = a → o.size = n → ∃ oA oC,
      passes e fuel fmtA k i numpr o = .done oA ∧ passes e fuel fmtC k i numpr o = .done oC ∧
        oA.argPtr = b ∧ oC.argPtr = b + 1 := by
  have hclosed := closed_spending he
  induction hcut generalizing i k numpr a with
  | @here u v hu hp =>
    obtain ⟨p, hletter⟩ := pieces?_concat hp
    have hpA := hletter (chr 'A') (by decide)
    have hpC := hletter (chr 'c') (by decide)
    have hall : (u ++ chr '%' :: v).length = u.length + (v.length + 1) := List.length_append
    have hone (x : Byte) : (u ++ chr '%' :: (v ++ [x])).length = u.length + (v.length + 2) := by
      simp
    have hnext {fmt : Format} {x : Byte} (hgoes : fmt.Goes x) (hholds : Holds fmt.c i (u ++ chr '%' :: v))
        (hend : i + (u ++ chr '%' :: v).length = fmt.lengthTrim) :
        Holds fmt.c i (u ++ chr '%' :: (v ++ [x])) := by
      simpa using hgoes.holds hholds hend
    obtain ⟨jA, hjA, -, hpassA⟩ := pass_spec e fuel hu hpA (hnext hA hholdsA hendA) (by omega)
      (by rw [hone]; omega)
    obtain ⟨jC, hjC, -, hpassC⟩ := pass_spec e fuel hu hpC (hnext hC hholdsC hendC) (by omega)
      (by rw [hone]; omega)
    rw [hone, List.length_nil] at hjA hjC
    obtain ⟨n, s, b, heval⟩ : ∃ n s b,
        Spends a n s b (({ p with conv := chr 'A' } : Pieces).eval e fuel) := by
      rw [← bind_pure (Pieces.eval _ _ _)]
      refine hclosed.bind_pieces hpA ?_ (fun s _ => hclosed.pure s) a
      rw [List.length_append, List.length_singleton]
      omega
    have hspendsA := specPass_spends (u := u) (by omega) heval (chr 'A') (unknown_spends s numpr b)
    have hspendsC := specPass_spends (u := u) (by omega) heval (chr 'c') (char_spends s numpr b)
    obtain ⟨k, rfl⟩ : ∃ k', k = k' + 2 := ⟨k - 2, by omega⟩
    refine ⟨u.length + (n + 2) + 1, b, Nat.succ_pos _, fun o ha hsize => ?_⟩
    obtain ⟨oA, hrunA, hargA⟩ := hspendsA.run_tail (k := k) hA (by omega) (hpassA numpr) ha
      (by omega) (by omega)
    obtain ⟨oC, hrunC, hargC⟩ := hspendsC.run_tail (k := k) hC (by omega) (hpassC numpr) ha
      (by omega) (by omega)
    exact ⟨oA, oC, hrunA, hrunC, hargA, hargC⟩
  | @later u v rest p hu hp hrest ih =>
    cases k with
    | zero => exact absurd hk (Nat.not_lt_zero _)
    | succ k =>
      obtain ⟨-, -, -, hlen⟩ := pieces?_length hp
      have hall : (u ++ chr '%' :: v).length = u.length + (v.length + 1) := List.length_append
      obtain ⟨j, hj, hrestA, hpassA⟩ := pass_spec e fuel hu hp hholdsA (by omega) (by omega)
      obtain ⟨j', hj', hrestC, hpassC⟩ := pass_spec e fuel hu hp hholdsC (by omega) (by omega)
      obtain rfl : j = j' := by omega
      obtain ⟨n, v', b, hspends⟩ : ∃ n v' b, Spends a n v' b (specPass e fuel u p numpr) :=
        hclosed.specPass (fun a => ⟨_, _, _, textPass_spends (by omega) a⟩) hp (by omega)
          (fun _ => floatClosed_spending he (by omega)) numpr a
      obtain ⟨n', b', hpos, hrun⟩ := ih hrestA hrestC (by omega) (by omega) (by omega) (k := k)
        (by omega) v' b
      refine ⟨n + n', b', by omega, fun o ha hsize => ?_⟩
      obtain ⟨o', hpass, hb, hsize'⟩ := hspends o ha (by omega)
      obtain ⟨oA, oC, hrunA, hrunC, hargs⟩ := hrun o' hb (by omega)
      refine ⟨oA, oC, ?_, ?_, hargs⟩
      · rw [passes_succ e o (hpassA numpr), hpass]
        exact hrunA
      · rw [passes_succ e o (hpassC numpr), hpass]
        exact hrunC

end

/-! ### The format alone decides -/

/-- The text with `x` behind it, and the letter `A` from there on. -/
def formatWith (t : List Byte) (x : Byte) : Format where
  lengthTrim := t.length
  c i := (t ++ [x]).getD i (chr 'A')

theorem holds_getD (t : List Byte) (x y : Byte) (i : Nat) (u : List Byte) :
    t.length = i → Holds (fun j => (t ++ u ++ [x]).getD j y) i u := by
  intro hi
  induction u generalizing t i with
  | nil => trivial
  | cons z u ih =>
    subst hi
    refine ⟨by simp, ?_⟩
    have hrest := ih (t ++ [z]) (t.length + 1) List.length_append
    simpa using hrest

theorem formatWith_hasText (t : List Byte) (x : Byte) : (formatWith t x).HasText t :=
  ⟨rfl, holds_getD [] x (chr 'A') 0 t rfl⟩

theorem formatWith_goes (t : List Byte) (x : Byte) : (formatWith t x).Goes x where
  next := by simp [formatWith]
  tail i hi := by
    have hle : (t ++ [x]).length ≤ i := by
      rw [List.length_append, List.length_singleton]
      exact hi
    simp only [formatWith]
    rw [List.getD_eq_getElem?_getD, List.getElem?_eq_none hle]
    rfl

/-- Everything is defined. -/
def tameEnv : Env where
  arg _ := ⟨0, 0, 0, 0, []⟩
  overflow := ⟨fun _ => some 0, fun _ => some 0⟩
  floating :=
    { nonneg _ := true, negative _ := false, oneOrMore _ := false, neg := id, toUlong _ := some 0,
      subUlong x _ := x, timesTen := id }

theorem tameEnv_tame : tameEnv.Tame where
  overflow _ := ⟨rfl, rfl⟩
  toUlong _ := rfl
  lessThanOne _ := rfl

/-- What is printed, and how many arguments are taken, does not depend on what is behind the text. -/
def FormatOnly (t : List Byte) : Prop :=
  ∀ (e : Env) (fuel length : Nat) (fmt fmt' : Format), fmt.HasText t → fmt'.HasText t →
    rtlSprint e fuel fmt length = rtlSprint e fuel fmt' length

theorem not_formatOnly {t : List Byte} (hcut : CutOff t) : ¬ FormatOnly t := by
  intro honly
  have hpos : t.length ≠ 0 := by
    intro hnil
    obtain rfl := List.length_eq_zero_iff.mp hnil
    generalize hnil : ([] : List Byte) = t at hcut
    cases hcut with
    | here => simp at hnil
    | later => simp at hnil
  obtain ⟨n, b, -, hrun⟩ := cutOff_apart (t.length + 3) (t.length + 3) tameEnv_tame hcut
    (formatWith_goes t _) (formatWith_goes t _) (formatWith_hasText t _).2 (formatWith_hasText t _).2
    (Nat.zero_add _) (Nat.zero_add _) (Nat.lt_succ_self _) (by omega) 0 0
  obtain ⟨oA, oC, hrunA, hrunC, hargA, hargC⟩ := hrun (Out.start n) rfl rfl
  have hsame := honly tameEnv (t.length + 3) n _ _ (formatWith_hasText t (chr 'A'))
    (formatWith_hasText t (chr 'c'))
  rw [rtlSprint, rtlSprint, if_neg (by exact hpos), if_neg (by exact hpos), hrunA, hrunC,
    Halt.done.injEq] at hsame
  rw [hsame] at hargA
  omega

/-- Formatting depends on the format alone exactly if no specification is cut off by its end. -/
theorem formatOnly_iff (t : List Byte) : FormatOnly t ↔ Complete (fun _ => True) t := by
  constructor
  · intro honly
    exact (complete_or_cutOff t).resolve_right fun hcut => not_formatOnly hcut honly
  · intro hcomplete e fuel length fmt fmt' h h'
    exact sprint_congr hcomplete h h' length

/-- A format that is a single `%`: with an `i` in the memory behind it an argument is printed. -/
theorem percent_reads_on : ¬ FormatOnly [chr '%'] := by
  intro honly
  have hsame := honly tameEnv 4 2 ⟨1, fun i => [chr '%', chr 'i'].getD i 0⟩
    ⟨1, fun i => [chr '%', chr '%'].getD i 0⟩ ⟨rfl, rfl, trivial⟩ ⟨rfl, rfl, trivial⟩
  revert hsame
  decide

end FreeVMS.Rtl.Sprint
