import FreeVMS.Rtl.SprintPrints

/-!
# The parts of a conversion

The conversions are put together from a few parts.  What these have, and what one part after another
inherits, every conversion has.
-/

namespace FreeVMS.Rtl.Sprint

/-- A property that the parts have and that goes through one after another. -/
structure Closed (e : Env) (P : (α : Type) → Print α → Prop) : Prop where
  pure {α : Type} (x : α) : P α (pure x)
  bind {α β : Type} {m : Print α} {f : α → Print β} : P α m → (∀ x, P β (f x)) → P β (m >>= f)
  putch (ch : Byte) : P Unit (putch ch)
  nextArg : P Arg (nextArg e)
  putArg : P Unit (putArg e)
  int (x : Int) : P Int (int e x)
  long (x : Int) : P Int (long e x)

/-- The same of the parts that work on a `double`. -/
structure FloatClosed (e : Env) (fuel : Nat) (P : (α : Type) → Print α → Prop) : Prop where
  toUlong (fval : BitVec 64) : P (BitVec 64) (defined (e.floating.toUlong fval))
  fraction (fval : BitVec 64) : P (BitVec 64) (fraction e fuel fval)

namespace Closed

variable {e : Env} {P : (α : Type) → Print α → Prop} {fuel : Nat} (h : Closed e P)

theorem ite {α : Type} {c : Prop} [Decidable c] {m m' : Print α} (hm : c → P α m)
    (hm' : ¬ c → P α m') : P α (if c then m else m') := by
  by_cases hc : c
  · rw [if_pos hc]
    exact hm hc
  · rw [if_neg hc]
    exact hm' hc

include h

theorem putstr (t : List Byte) : P Unit (putstr t) := by
  induction t with
  | nil => exact h.pure ()
  | cons ch t ih => exact h.bind (h.putch ch) fun _ => ih

theorem pad (ch : Byte) (n : Nat) : P Unit (pad ch n) := by
  induction n with
  | zero => exact h.pure ()
  | succ n ih => exact h.bind (h.putch ch) fun _ => ih

theorem leftPad (f : Flags) (num : Int) : P Unit (leftPad f num) :=
  ite (fun _ => h.pad _ _) fun _ => h.pure ()

theorem rightPad (f : Flags) (num : Int) : P Unit (rightPad f num) :=
  ite (fun _ => h.pad _ _) fun _ => h.pure ()

theorem convert (digits : List Byte) {base uval : Nat} (hb : 2 ≤ base) (hlt : uval < 2 ^ 64) :
    P (List Byte) (convert digits base convertSize uval) := by
  rw [convert_bits digits hb hlt]
  exact h.pure _

theorem magnitude (sign : Bool) (uval : BitVec 64) : P (BitVec 64) (magnitude e sign uval) :=
  ite (fun _ => h.bind (h.long _) fun _ => h.pure _) fun _ => h.pure _

theorem printedSize (f : Flags) (base : Nat) (signch : Option Byte) (numdigits precision : Int) :
    P Int (printedSize e f base signch numdigits precision) := by
  refine h.bind (ite (fun _ => h.int _) fun _ => h.pure _) fun _ => ?_
  refine ite (fun _ => ?_) fun _ => h.pure _
  refine ite (fun _ => h.int _) fun _ => ?_
  exact ite (fun _ => h.int _) fun _ => h.pure _

theorem insertLeft (f : Flags) (width numpr : Int) : P Int (insertLeft e f width numpr) := by
  refine ite (fun _ => ?_) fun _ => h.pure _
  refine ite (fun _ => h.pure _) fun _ => ?_
  refine h.bind (h.int _) fun _ => ?_
  exact h.bind (h.pad _ _) fun _ => h.pure _

theorem insertSign (signch : Option Byte) (numpr : Int) : P Int (insertSign e signch numpr) := by
  cases signch with
  | none => exact h.pure _
  | some ch => exact h.bind (h.putch ch) fun _ => h.int _

theorem insertPrefix (f : Flags) (base : Nat) (numpr : Int) :
    P Int (insertPrefix e f base numpr) := by
  refine ite (fun _ => ?_) fun _ => h.pure _
  refine h.bind (h.int _) fun _ => ?_
  exact h.bind (h.putstr _) fun _ => h.pure _

theorem printNumber (f : Flags) (width precision : Int) {base : Nat} (hb : 2 ≤ base)
    (digits : List Byte) (sign : Bool) (uval : BitVec 64) :
    P Int (printNumber e f width precision base digits sign uval) := by
  refine h.bind (h.magnitude sign uval) fun value => ?_
  refine h.bind (h.convert digits hb value.isLt) fun _ => ?_
  refine h.bind (h.printedSize f base _ _ precision) fun _ => ?_
  refine h.bind (h.insertLeft f width _) fun _ => ?_
  refine h.bind (h.insertSign _ _) fun _ => ?_
  refine h.bind (h.insertPrefix f base _) fun _ => ?_
  refine h.bind (h.int _) fun _ => ?_
  refine h.bind (h.pad _ _) fun _ => ?_
  refine h.bind (h.putstr _) fun _ => ?_
  refine h.bind (h.int _) fun _ => ?_
  refine h.bind (h.int _) fun _ => ?_
  exact h.bind (h.rightPad f _) fun _ => h.pure _

theorem precisionDigits (hfloat : FloatClosed e fuel P) (precision : Nat) (fval : BitVec 64) :
    P Unit (precisionDigits e precision fval) := by
  induction precision generalizing fval with
  | zero => exact h.pure ()
  | succ precision ih =>
    refine h.bind (hfloat.toUlong _) fun _ => ?_
    exact h.bind (h.putch _) fun _ => ih _

theorem printFloat (hfloat : FloatClosed e fuel P) (f : Flags) (width precision : Int) :
    P Int (printFloat e fuel f width precision) := by
  refine h.bind h.nextArg fun a => ?_
  refine h.bind (hfloat.toUlong _) fun uval => ?_
  refine h.bind (h.convert _ (by decide) uval.isLt) fun _ => ?_
  refine h.bind (ite (fun _ => h.bind (h.int _) fun _ => h.int _) fun _ => h.pure _) fun _ => ?_
  refine h.bind (h.int _) fun _ => ?_
  refine h.bind (h.leftPad f _) fun _ => ?_
  refine h.bind (h.putstr _) fun _ => ?_
  refine h.bind (h.putstr _) fun _ => ?_
  refine h.bind (ite (fun _ => ?_) fun _ => h.pure ()) fun _ => ?_
  · refine h.bind (hfloat.fraction _) fun _ => ?_
    exact h.bind (h.putch _) fun _ => h.precisionDigits hfloat _ _
  refine h.bind (h.int _) fun _ => ?_
  exact h.bind (h.rightPad f _) fun _ => h.pure _

theorem putdec {num : Nat} (hlt : num < 2 ^ 64) : P Unit (putdec num) :=
  h.bind (h.convert _ (by decide) hlt) fun _ => h.putstr _

theorem printThread : P Unit (printThread e) := by
  refine h.bind h.nextArg fun a => ?_
  have hlt := a.thread.isLt
  refine ite (fun _ => h.putstr _) fun _ => ?_
  refine ite (fun _ => ?_) fun _ => ite (fun _ => ?_) fun _ => ?_
  · refine h.bind (h.putstr _) fun _ => ?_
    refine h.bind (h.putdec (Nat.lt_of_le_of_lt (Nat.div_le_self _ _) hlt)) fun _ => ?_
    refine h.bind (h.putstr _) fun _ => ?_
    exact h.putdec (Nat.lt_of_le_of_lt (Nat.mod_le _ _) hlt)
  · refine h.bind (h.putstr _) fun _ => ?_
    exact h.putdec (Nat.lt_of_le_of_lt (Nat.div_le_self _ _) hlt)
  · exact h.bind (h.putstr _) fun _ => h.putdec hlt

theorem printString (f : Flags) (width precision numpr : Int) :
    P Int (printString e f width precision numpr) := by
  refine h.bind h.nextArg fun a => ?_
  refine h.bind (ite (fun _ => ?_) fun _ => h.pure _) fun _ => ?_
  · refine h.bind (h.int _) fun _ => ?_
    exact h.bind (h.leftPad f _) fun _ => h.pure _
  refine h.bind (h.putstr _) fun _ => ?_
  refine h.bind (h.int _) fun _ => ?_
  exact h.bind (h.rightPad f _) fun _ => h.pure _

theorem conversion (s : Spec) (hfloat : s.conv = chr 'f' → FloatClosed e fuel P) (numpr : Int) :
    P Int (conversion e fuel s numpr) := by
  have hread {sign f_long : Bool} {f : Flags} {width precision : Int} {base : Nat}
      {digits : List Byte} (hb : 2 ≤ base) : P Int (do
        let uval ← readNumber e f_long
        Sprint.printNumber e f width precision base digits sign uval) :=
    h.bind (h.bind h.nextArg fun _ => h.pure _) fun _ => h.printNumber _ _ _ hb _ _ _
  have hend {m : Print Unit} (hm : P Unit m) : P Int (do m; return numpr) :=
    h.bind hm fun _ => h.pure _
  refine ite (fun _ => hread (by decide)) fun _ => ?_
  refine ite (fun _ => hread (by decide)) fun _ => ?_
  refine ite (fun _ => hread (by decide)) fun _ => ?_
  refine ite (fun _ => hread (by decide)) fun _ => ?_
  refine ite (fun _ => hread (by decide)) fun _ => ?_
  refine ite (fun _ => hread (by decide)) fun _ => ?_
  refine ite (fun _ => hread (by decide)) fun _ => ?_
  refine ite (fun hc => h.printFloat (hfloat hc) _ _ _) fun _ => ?_
  refine ite (fun _ => hend h.printThread) fun _ => ?_
  refine ite (fun _ => h.printString _ _ _ _) fun _ => ?_
  refine ite (fun _ => hend h.putArg) fun _ => ?_
  refine ite (fun _ => hend (h.putch _)) fun _ => ?_
  exact h.bind (h.putch _) fun _ => hend (h.putch _)

theorem digitsValue (num : Int) {ds : List Byte} (hfuel : ds.length < fuel) :
    P Int (digitsValue e fuel num ds) := by
  induction ds generalizing fuel num with
  | nil =>
    cases fuel with
    | zero => exact absurd hfuel (Nat.not_lt_zero _)
    | succ fuel => exact h.pure num
  | cons c ds ih =>
    cases fuel with
    | zero => exact absurd hfuel (Nat.not_lt_zero _)
    | succ fuel =>
      refine h.bind (h.int _) fun _ => ?_
      refine h.bind (h.int _) fun _ => ?_
      exact ih _ (Nat.lt_of_succ_lt_succ hfuel)

theorem eval {n : Count} (hfuel : n.digits.length < fuel) : P Int (n.eval e fuel) := by
  cases n with
  | absent => exact h.pure _
  | star => exact h.bind h.nextArg fun _ => h.pure _
  | decimal ds => exact h.digitsValue 0 hfuel

/-- What follows a specification, where there is fuel for its text. -/
theorem bind_pieces {β : Type} {v rest : List Byte} {p : Pieces} {f : Spec → Print β}
    (hp : pieces? v = some (p, rest)) (hfuel : v.length < fuel)
    (hf : ∀ s, s.conv = p.conv → P β (f s)) : P β (p.eval e fuel >>= f) := by
  obtain ⟨hflags, hwidth, hprecision, -⟩ := pieces?_length hp
  rw [Pieces.eval, rounds, if_pos (by omega)]
  simp only [bind_assoc, pure_bind]
  refine h.bind (h.eval (by omega)) fun _ => ?_
  refine h.bind (h.eval (by omega)) fun _ => ?_
  exact hf _ rfl

theorem specPass {u v rest : List Byte} {p : Pieces} (htext : P Unit (textPass fuel u))
    (hp : pieces? v = some (p, rest)) (hfuel : v.length < fuel)
    (hfloat : p.conv = chr 'f' → FloatClosed e fuel P) (numpr : Int) :
    P Int (specPass e fuel u p numpr) := by
  refine h.bind htext fun _ => ?_
  exact h.bind_pieces hp hfuel fun s hs => h.conversion s (fun hf => hfloat (hs ▸ hf)) numpr

end Closed

end FreeVMS.Rtl.Sprint
