import FreeVMS.Rtl.SprintCode
import Mathlib.Data.List.TakeWhile

/-!
# The text of a format

A format as a list of characters.  `pieces?` takes a conversion specification from it the way the
source does; where that succeeds, a pass of the outer loop reads nothing behind the text.
-/

namespace FreeVMS.Rtl.Sprint

/-! ### Texts in memory -/

def Holds (c : Nat → Byte) : Nat → List Byte → Prop
  | _, [] => True
  | i, x :: r => c i = x ∧ Holds c (i + 1) r

theorem holds_append {c : Nat → Byte} {i : Nat} {u v : List Byte} :
    Holds c i (u ++ v) ↔ Holds c i u ∧ Holds c (i + u.length) v := by
  induction u generalizing i with
  | nil => simp [Holds]
  | cons x u ih =>
    rw [List.cons_append, Holds, Holds, ih, List.length_cons, and_assoc, Nat.add_right_comm i,
      Nat.add_assoc i]

theorem Holds.dropWhile {c : Nat → Byte} {i : Nat} {r : List Byte} (h : Holds c i r)
    (q : Byte → Bool) : Holds c (i + (r.takeWhile q).length) (r.dropWhile q) := by
  rw [← List.takeWhile_append_dropWhile (p := q) (l := r)] at h
  exact (holds_append.mp h).2

/-- A format that holds a text. -/
def Format.HasText (fmt : Format) (t : List Byte) : Prop :=
  fmt.lengthTrim = t.length ∧ Holds fmt.c 0 t

/-! ### The pieces of a conversion specification -/

/-- A width or a precision. -/
inductive Count where
  | absent
  | star
  | decimal (digits : List Byte)
deriving DecidableEq, Repr

def Count.digits : Count → List Byte
  | .decimal ds => ds
  | _ => []

structure Pieces where
  flags : List Byte
  width : Count
  precision : Count
  modifier : Option Byte
  conv : Byte
deriving DecidableEq, Repr

/-- The width, with what is behind it.  The `*` is not stepped over. -/
def widthOf : List Byte → Count × List Byte
  | [] => (.absent, [])
  | c :: r =>
      if c = chr '*' then (.star, c :: r)
      else if isDigit c then
        (.decimal ((c :: r).takeWhile isDigit), (c :: r).dropWhile isDigit)
      else (.absent, c :: r)

/-- Behind the point of a precision. -/
def pointOf : List Byte → Count × List Byte
  | [] => (.absent, [])
  | c :: r =>
      if c = chr '*' then (.star, r)
      else if isDigit c then
        (.decimal ((c :: r).takeWhile upToNine), (c :: r).dropWhile upToNine)
      else (.absent, c :: r)

def precisionOf : List Byte → Count × List Byte
  | [] => (.absent, [])
  | c :: r => if c = chr '.' then pointOf r else (.absent, c :: r)

def modifierOf : List Byte → Option Byte × List Byte
  | [] => (none, [])
  | c :: r => if isModifier c then (some c, r) else (none, c :: r)

/-- The specification that follows a `%`, and what is behind it: `none` if the text ends before. -/
def pieces? (r : List Byte) : Option (Pieces × List Byte) :=
  let width := widthOf (r.dropWhile isFlag)
  let precision := precisionOf width.2
  let modifier := modifierOf precision.2
  match modifier.2 with
  | [] => none
  | c :: rest => some (⟨r.takeWhile isFlag, width.1, precision.1, modifier.1, c⟩, rest)

/-- A character that ends a specification whatever it follows. -/
def IsLetter (x : Byte) : Prop :=
  isFlag x = false ∧ isDigit x = false ∧ upToNine x = false ∧ isModifier x = false ∧ x ≠ chr '*' ∧
    x ≠ chr '.'

instance (x : Byte) : Decidable (IsLetter x) := inferInstanceAs (Decidable (_ ∧ _))

/-- The specifications of a text are complete, and `ok` holds of their conversion characters. -/
inductive Complete (ok : Byte → Prop) : List Byte → Prop
  | text {u : List Byte} : chr '%' ∉ u → Complete ok u
  | spec {u v rest : List Byte} {p : Pieces} : chr '%' ∉ u → pieces? v = some (p, rest) →
      ok p.conv → Complete ok rest → Complete ok (u ++ chr '%' :: v)

/-- A specification of the text is cut off by its end. -/
inductive CutOff : List Byte → Prop
  | here {u v : List Byte} : chr '%' ∉ u → pieces? v = none → CutOff (u ++ chr '%' :: v)
  | later {u v rest : List Byte} {p : Pieces} : chr '%' ∉ u → pieces? v = some (p, rest) →
      CutOff rest → CutOff (u ++ chr '%' :: v)

theorem length_widthOf (r : List Byte) :
    (widthOf r).1.digits.length ≤ r.length ∧ (widthOf r).2.length ≤ r.length := by
  cases r with
  | nil => simp [widthOf, Count.digits]
  | cons c r =>
    rw [widthOf]
    split
    · simp [Count.digits]
    · split
      · exact ⟨(List.takeWhile_sublist _).length_le, (List.dropWhile_sublist _).length_le⟩
      · simp [Count.digits]

theorem length_precisionOf (r : List Byte) :
    (precisionOf r).1.digits.length ≤ r.length ∧ (precisionOf r).2.length ≤ r.length := by
  have hpoint (r : List Byte) :
      (pointOf r).1.digits.length ≤ r.length ∧ (pointOf r).2.length ≤ r.length := by
    cases r with
    | nil => simp [pointOf, Count.digits]
    | cons c r =>
      rw [pointOf]
      split
      · simp [Count.digits]
      · split
        · exact ⟨(List.takeWhile_sublist _).length_le, (List.dropWhile_sublist _).length_le⟩
        · simp [Count.digits]
  cases r with
  | nil => simp [precisionOf, Count.digits]
  | cons c r =>
    rw [precisionOf]
    split
    · have hr := hpoint r
      rw [List.length_cons]
      omega
    · simp [Count.digits]

theorem length_modifierOf (r : List Byte) : (modifierOf r).2.length ≤ r.length := by
  cases r with
  | nil => exact Nat.le_refl _
  | cons c r =>
    rw [modifierOf]
    split
    · exact Nat.le_succ _
    · exact Nat.le_refl _

theorem pieces?_length {r rest : List Byte} {p : Pieces} (h : pieces? r = some (p, rest)) :
    p.flags.length ≤ r.length ∧ p.width.digits.length ≤ r.length ∧
      p.precision.digits.length ≤ r.length ∧ rest.length < r.length := by
  have hflags := (List.takeWhile_sublist (l := r) isFlag).length_le
  have hafter := (List.dropWhile_sublist (l := r) isFlag).length_le
  have hwidth := length_widthOf (r.dropWhile isFlag)
  have hprecision := length_precisionOf (widthOf (r.dropWhile isFlag)).2
  have hmodifier := length_modifierOf (precisionOf (widthOf (r.dropWhile isFlag)).2).2
  simp only [pieces?] at h
  split at h
  · cases h
  · rename_i hrest
    obtain ⟨rfl, rfl⟩ := Prod.mk.inj (Option.some.inj h)
    rw [hrest, List.length_cons] at hmodifier
    exact ⟨hflags, hwidth.1.trans hafter, hprecision.1.trans (hwidth.2.trans hafter), by omega⟩

/-! ### What the code does with them -/

section

variable (e : Env)

/-- The digits of a width or a precision, with the fuel of the code's loop. -/
def digitsValue : Nat → Int → List Byte → Print Int
  | 0, _, _ => halt .diverge
  | _ + 1, num, [] => pure num
  | k + 1, num, c :: ds => do
      let num ← int e (num * 10)
      let num ← int e (num + ((c.toNat : Int) - 48))
      digitsValue k num ds

def Count.eval (fuel : Nat) : Count → Print Int
  | .absent => pure (-1)
  | .star => do
      let a ← nextArg e
      return a.int.toInt
  | .decimal ds => digitsValue e fuel 0 ds

/-- The fuel of a loop that goes `n` times around. -/
def rounds (fuel n : Nat) : Print Unit := if n < fuel then pure () else halt .diverge

def Pieces.eval (fuel : Nat) (p : Pieces) : Print Spec := do
  rounds fuel p.flags.length
  let width ← p.width.eval e fuel
  let precision ← p.precision.eval e fuel
  return ⟨p.flags.foldl Flags.set noFlags, width, precision, p.modifier = some (chr 'l'), p.conv⟩

/-- The characters in front of a `%`. -/
def copyText : Nat → List Byte → Print Unit
  | 0, _ => halt .diverge
  | _ + 1, [] => pure ()
  | k + 1, c :: u => fun o => if o.size = 0 then toDone o else copyText k u (o.store o.strPtr c)

variable {c : Nat → Byte} {i j k fuel : Nat} {r rest : List Byte} {p : Pieces} {fmt : Format}

@[simp] theorem halt_bind {α β : Type} (h : Halt) (f : α → Print β) : (halt h : Print α) >>= f = halt h :=
  rfl

@[simp] theorem toDone_bind {α β : Type} (f : α → Print β) : (toDone : Print α) >>= f = toDone := rfl

@[simp] theorem halt_map {α β : Type} (h : Halt) (f : α → β) :
    f <$> (halt h : Print α) = halt h := rfl

theorem bind_of_ok {α β : Type} {m : Print α} {x : α} {o o' : Out} (h : m o = .ok (x, o'))
    (f : α → Print β) : (m >>= f) o = f x o' := by
  show (m o >>= fun r => f r.1 r.2) = _
  rw [h]
  rfl

theorem bind_of_error {α β : Type} {m : Print α} {o : Out} {e : Halt} (h : m o = .error e)
    (f : α → Print β) : (m >>= f) o = .error e := by
  show (m o >>= fun r => f r.1 r.2) = _
  rw [h]
  rfl

theorem parseFlags_eq (f : Flags) (h : Holds c i r) (hne : r.dropWhile isFlag ≠ []) :
    parseFlags c k f i = do
      rounds k (r.takeWhile isFlag).length
      return ((r.takeWhile isFlag).foldl Flags.set f, i + (r.takeWhile isFlag).length) := by
  induction r generalizing i k f with
  | nil => exact absurd rfl hne
  | cons y r ih =>
    obtain ⟨hy, h⟩ := h
    cases k with
    | zero => simp [parseFlags, rounds]
    | succ k =>
      rw [parseFlags, hy]
      by_cases hflag : isFlag y = true
      · rw [List.dropWhile_cons_of_pos hflag] at hne
        rw [if_pos hflag, ih (f.set y) h hne, List.takeWhile_cons_of_pos hflag, List.length_cons,
          List.foldl_cons]
        simp only [rounds, Nat.add_lt_add_iff_right, Nat.add_assoc, Nat.add_comm 1]
      · rw [if_neg hflag, List.takeWhile_cons_of_neg hflag]
        simp [rounds]

theorem parseDigits_eq {more : Byte → Bool} (num : Int) (h : Holds c i r)
    (hne : r.dropWhile more ≠ []) :
    parseDigits e more c k num i = do
      let num ← digitsValue e k num (r.takeWhile more)
      return (num, i + (r.takeWhile more).length) := by
  induction r generalizing i k num with
  | nil => exact absurd rfl hne
  | cons y r ih =>
    obtain ⟨hy, h⟩ := h
    cases k with
    | zero => simp [parseDigits, digitsValue]
    | succ k =>
      rw [parseDigits, hy]
      by_cases hmore : more y = true
      · rw [List.dropWhile_cons_of_pos hmore] at hne
        rw [if_pos hmore, List.takeWhile_cons_of_pos hmore, digitsValue]
        simp only [ih _ h hne, bind_assoc, List.length_cons, Nat.add_assoc, Nat.add_comm 1]
      · rw [if_neg hmore, List.takeWhile_cons_of_neg hmore]
        simp [digitsValue]

theorem length_takeWhile_dropWhile (q : Byte → Bool) (r : List Byte) (i : Nat) :
    i + (r.takeWhile q).length + (r.dropWhile q).length = i + r.length := by
  rw [Nat.add_assoc, ← List.length_append, List.takeWhile_append_dropWhile]

theorem parseWidth_eq (fuel : Nat) (h : Holds c i r) (hne : (widthOf r).2 ≠ []) :
    ∃ j, j + (widthOf r).2.length = i + r.length ∧ Holds c j (widthOf r).2 ∧
      parseWidth e fuel c i = do
        let num ← (widthOf r).1.eval e fuel
        return (num, j) := by
  cases r with
  | nil => exact absurd rfl hne
  | cons y r =>
    have hy : c i = y := h.1
    rw [widthOf] at hne ⊢
    rw [parseWidth, hy]
    by_cases hstar : y = chr '*'
    · rw [if_pos hstar, if_pos hstar]
      exact ⟨i, rfl, h, by simp [Count.eval]⟩
    · rw [if_neg hstar] at hne
      rw [if_neg hstar, if_neg hstar]
      by_cases hdigit : isDigit y = true
      · rw [if_pos hdigit] at hne
        rw [if_pos hdigit, if_pos hdigit]
        exact ⟨_, length_takeWhile_dropWhile isDigit (y :: r) i, h.dropWhile isDigit,
          parseDigits_eq e 0 h hne⟩
      · rw [if_neg hdigit, if_neg hdigit]
        exact ⟨i, rfl, h, by simp [Count.eval]⟩

theorem parsePrecision_eq (fuel : Nat) (h : Holds c i r) (hne : (precisionOf r).2 ≠ []) :
    ∃ j, j + (precisionOf r).2.length = i + r.length ∧ Holds c j (precisionOf r).2 ∧
      parsePrecision e fuel c i = do
        let num ← (precisionOf r).1.eval e fuel
        return (num, j) := by
  cases r with
  | nil => exact absurd rfl hne
  | cons y r =>
    have hy : c i = y := h.1
    rw [precisionOf] at hne ⊢
    rw [parsePrecision, hy]
    by_cases hpoint : y = chr '.'
    · rw [if_pos hpoint] at hne
      rw [if_pos hpoint, if_pos hpoint]
      have hr : Holds c (i + 1) r := h.2
      cases r with
      | nil => exact absurd rfl hne
      | cons z r =>
        have hz : c (i + 1) = z := hr.1
        rw [pointOf] at hne ⊢
        rw [hz]
        by_cases hstar : z = chr '*'
        · rw [if_pos hstar, if_pos hstar]
          refine ⟨i + 2, ?_, hr.2, by simp [Count.eval]⟩
          simp only [List.length_cons]
          omega
        · rw [if_neg hstar] at hne
          rw [if_neg hstar, if_neg hstar]
          by_cases hdigit : isDigit z = true
          · rw [if_pos hdigit] at hne
            rw [if_pos hdigit, if_pos hdigit]
            refine ⟨_, ?_, hr.dropWhile upToNine, parseDigits_eq e 0 hr hne⟩
            rw [length_takeWhile_dropWhile upToNine (z :: r) (i + 1)]
            simp only [List.length_cons]
            omega
          · rw [if_neg hdigit, if_neg hdigit]
            refine ⟨i + 1, ?_, hr, by simp [Count.eval]⟩
            simp only [List.length_cons]
            omega
    · rw [if_neg hpoint, if_neg hpoint]
      exact ⟨i, rfl, h, by simp [Count.eval]⟩

/-- The modifier and the conversion character. -/
theorem parseModifier_eq (h : Holds c i r) {conv : Byte} (hrest : (modifierOf r).2 = conv :: rest) :
    ∃ j, j + rest.length = i + r.length ∧ Holds c j rest ∧
      decide (c i = chr 'l') = decide ((modifierOf r).1 = some (chr 'l')) ∧
      c (if isModifier (c i) then i + 1 else i) = conv ∧
      (if isModifier (c i) then i + 1 else i) + 1 = j := by
  cases r with
  | nil => cases hrest
  | cons y r =>
    obtain ⟨hy, hr⟩ := h
    rw [modifierOf] at hrest ⊢
    rw [hy]
    by_cases hmod : isModifier y = true
    · rw [if_pos hmod] at hrest
      rw [if_pos hmod, if_pos hmod]
      obtain rfl : r = conv :: rest := hrest
      refine ⟨i + 2, ?_, hr.2, by simp, hr.1, rfl⟩
      simp only [List.length_cons]
      omega
    · rw [if_neg hmod] at hrest
      rw [if_neg hmod, if_neg hmod]
      injection hrest with hconv hrest
      subst hconv hrest
      have hl : y ≠ chr 'l' := by
        rintro rfl
        exact hmod (by decide)
      refine ⟨i + 1, ?_, hr, by simp [hl], hy, rfl⟩
      simp only [List.length_cons]
      omega

theorem modifierOf_ne_nil {r : List Byte} (h : (modifierOf r).2 ≠ []) : r ≠ [] := by
  rintro rfl
  exact h rfl

theorem precisionOf_ne_nil {r : List Byte} (h : (precisionOf r).2 ≠ []) : r ≠ [] := by
  rintro rfl
  exact h rfl

theorem widthOf_ne_nil {r : List Byte} (h : (widthOf r).2 ≠ []) : r ≠ [] := by
  rintro rfl
  exact h rfl

/-- Where the text holds a whole specification, nothing behind it decides what is read.  At most its
    last character may be behind the end of the format. -/
theorem parse_eq (fuel : Nat) (h : Holds fmt.c i r) (hi : 0 < i)
    (hend : i + r.length ≤ fmt.lengthTrim + 1) (hp : pieces? r = some (p, rest)) :
    ∃ j, j + rest.length = i + r.length ∧ Holds fmt.c j rest ∧
      parse e fuel fmt i = do
        let s ← p.eval e fuel
        return (s, j) := by
  simp only [pieces?] at hp
  cases hm : (modifierOf (precisionOf (widthOf (r.dropWhile isFlag)).2).2).2 with
  | nil =>
    rw [hm] at hp
    cases hp
  | cons conv rest' =>
    rw [hm] at hp
    obtain ⟨rfl, rfl⟩ := Prod.mk.inj (Option.some.inj hp)
    have hne₃ := modifierOf_ne_nil (hm ▸ List.cons_ne_nil _ _)
    have hne₂ := precisionOf_ne_nil hne₃
    have hne₁ := widthOf_ne_nil hne₂
    have hlen := length_takeWhile_dropWhile isFlag r i
    have hpos := List.length_pos_iff.mpr hne₁
    obtain ⟨j₁, hj₁, hh₁, hwidth⟩ := parseWidth_eq e fuel (h.dropWhile isFlag) hne₂
    obtain ⟨j₂, hj₂, hh₂, hprecision⟩ := parsePrecision_eq e fuel hh₁ hne₃
    obtain ⟨j₃, hj₃, hh₃, hlong, hconv, hj⟩ := parseModifier_eq hh₂ hm
    have htest : endTest fmt (i + (r.takeWhile isFlag).length) = pure () := by
      rw [endTest, if_neg (by omega)]
    refine ⟨j₃, by omega, hh₃, ?_⟩
    rw [parse, parseFlags_eq noFlags h hne₁]
    simp only [bind_assoc, pure_bind, htest, parseSpec, hwidth, hprecision, hlong, hconv, hj,
      Pieces.eval]

theorem copy_eq {u v : List Byte} (hu : chr '%' ∉ u) (h : Holds fmt.c i (u ++ chr '%' :: v))
    (hlt : i + u.length < fmt.lengthTrim) :
    copy fmt k i = do
      copyText k u
      return i + u.length + 1 := by
  induction u generalizing i k with
  | nil =>
    have hi : fmt.c i = chr '%' := h.1
    cases k with
    | zero => simp [copy, copyText]
    | succ k => simp [copy, copyText, hi]
  | cons y u ih =>
    obtain ⟨hy, h⟩ := h
    obtain ⟨hne, hu⟩ := List.ne_and_not_mem_of_not_mem_cons hu
    rw [List.length_cons] at hlt
    cases k with
    | zero => simp [copy, copyText]
    | succ k =>
      rw [copy, hy, if_neg (Ne.symm hne)]
      funext o
      have hat : i ≠ fmt.lengthTrim := by omega
      have hrec := ih (i := i + 1) (k := k) hu h (by omega)
      rw [hrec]
      show _ = StateT.bind (copyText (k + 1) (y :: u)) _ o
      by_cases hsize : o.size = 0
      · simp only [copyText, hsize, true_or, if_true, StateT.bind, toDone]
        rfl
      · simp only [copyText, hsize, hat, or_self, if_false, StateT.bind, List.length_cons,
          Nat.add_assoc, Nat.add_comm 1]
        rfl

/-- At the end of the text the run is over, whatever is behind it. -/
theorem copy_end {α : Type} (f : Nat → Print α) (hr : chr '%' ∉ r) (h : Holds fmt.c i r)
    (hend : i + r.length = fmt.lengthTrim) :
    (do
      let j ← copy fmt k i
      endTest fmt j
      f j) = (do copyText k r; toDone) := by
  induction r generalizing i k with
  | nil =>
    cases k with
    | zero => simp [copy, copyText]
    | succ k =>
      obtain rfl : i = fmt.lengthTrim := hend
      by_cases hc : fmt.c fmt.lengthTrim = chr '%'
      · simp [copy, copyText, hc, endTest]
      · rw [copy, if_neg hc]
        funext o
        simp [copyText, bind, StateT.bind, toDone]
        rfl
  | cons y r ih =>
    obtain ⟨hy, h⟩ := h
    obtain ⟨hne, hr⟩ := List.ne_and_not_mem_of_not_mem_cons hr
    rw [List.length_cons] at hend
    cases k with
    | zero => simp [copy, copyText]
    | succ k =>
      rw [copy, hy, if_neg (Ne.symm hne)]
      funext o
      have hlt : i ≠ fmt.lengthTrim := by omega
      have hrec := congrFun (ih (i := i + 1) (k := k) hr h (by omega)) (o.store o.strPtr y)
      by_cases hsize : o.size = 0
      · simp only [copyText, hsize, true_or, if_true, bind, StateT.bind, toDone]
        rfl
      · simpa [copyText, hsize, hlt, bind, StateT.bind] using hrec

/-- A pass over a text without a specification. -/
def textPass (fuel : Nat) (u : List Byte) : Print Unit := do
  sizeTest
  copyText fuel u

/-- A pass over `u` and then a specification: `numpr` behind it. -/
def specPass (fuel : Nat) (u : List Byte) (p : Pieces) (numpr : Int) : Print Int := do
  textPass fuel u
  let s ← p.eval e fuel
  conversion e fuel s numpr

/-- The last pass. -/
theorem passes_text (fuel k : Nat) (numpr : Int) (o : Out) (hr : chr '%' ∉ r) (h : Holds fmt.c i r)
    (hend : i + r.length = fmt.lengthTrim) :
    passes e fuel fmt (k + 1) i numpr o =
      match textPass fuel r o with
      | .ok (_, o) => .done o
      | .error h => h := by
  have hpass : pass e fuel fmt i numpr = (do textPass fuel r; toDone) := by
    rw [pass, copy_end _ hr h hend, textPass, bind_assoc]
  rw [passes, hpass]
  cases hrun : textPass fuel r o with
  | ok _ =>
    rw [bind_of_ok hrun]
    rfl
  | error _ => rw [bind_of_error hrun]

/-- A pass over a text that starts with a whole specification. -/
theorem pass_spec (fuel : Nat) {u v : List Byte} (hu : chr '%' ∉ u)
    (hp : pieces? v = some (p, rest)) (h : Holds fmt.c i (u ++ chr '%' :: v))
    (hlt : i + u.length < fmt.lengthTrim)
    (hend : i + (u ++ chr '%' :: v).length ≤ fmt.lengthTrim + 1) :
    ∃ j, j + rest.length = i + (u ++ chr '%' :: v).length ∧ Holds fmt.c j rest ∧
      ∀ numpr, pass e fuel fmt i numpr = do
        let numpr ← specPass e fuel u p numpr
        return (j, numpr) := by
  rw [List.length_append, List.length_cons] at hend ⊢
  have hv : Holds fmt.c (i + u.length + 1) v := (holds_append.mp h).2.2
  obtain ⟨j, hj, hrest, hparse⟩ := parse_eq e fuel hv (Nat.succ_pos _) (by omega) hp
  have htest : endTest fmt (i + u.length + 1) = pure () := by
    rw [endTest, if_neg (by omega)]
  refine ⟨j, by omega, hrest, fun numpr => ?_⟩
  rw [pass, copy_eq hu h hlt]
  simp only [bind_assoc, pure_bind, htest, hparse, specPass, textPass]

theorem passes_succ {j k : Nat} {numpr : Int} {m : Print Int} (o : Out)
    (h : pass e fuel fmt i numpr = do let numpr ← m; return (j, numpr)) :
    passes e fuel fmt (k + 1) i numpr o =
      match m o with
      | .ok (numpr, o) => passes e fuel fmt k j numpr o
      | .error h => h := by
  rw [passes, h]
  cases hrun : m o with
  | ok _ =>
    rw [bind_of_ok hrun]
    rfl
  | error _ => rw [bind_of_error hrun]

end

end FreeVMS.Rtl.Sprint
