import FreeVMS.Rtl.DecimalCode

/-!
# Rounding and division of decimals

`str$round`, and `str$divide` with its two loops. What a loop leaves behind is there if the loop is
left within the steps that it is given.
-/

namespace FreeVMS.Rtl.Num

def strDivbyZer : Nat := 2392140

/-- `MAXCSTR16` -/
def maxCstr16 : Nat := 65535

/-! ## Strings -/

/-- `str$get1_dx`: the bytes of the string as far as they fit, and NULs. -/
def get1 (length : Nat) (s : List Byte) : List Byte :=
  (s ++ List.replicate (length - s.length) 0).take length

/-- `str$append` -/
def append (s t : List Byte) : List Byte := (s ++ t).take maxCstr16

/-- `str$$ncompare`, which trims both strings. -/
def ncompareTrim (s t : List Byte) : Except Fault (List Byte × List Byte × Ordering) :=
  if s = [] ∨ t = [] then .error .nullPointer
  else .ok (lzerotrim s, lzerotrim t, compareText (lzerotrim s) (lzerotrim t))

/-! ## `str$round` -/

/-- `Correct the multiplier we are changing the string length` -/
def correct (exp : BitVec 64) (length : BitVec 16) (tdigits : BitVec 64) : BitVec 64 :=
  if exp.toInt ≤ 0 then exp + (length.setWidth 64 - tdigits)
  else exp - (length.setWidth 64 - tdigits)

/-- `Just truncate` -/
def truncateTo (tdigits : BitVec 64) (a c : Decimal) : Decimal :=
  ⟨c.sign, correct c.exp a.len tdigits, get1 (tdigits.setWidth 16).toNat a.digits⟩

/-- `str$round`. What is read at `aexp` may depend on what is in `cexp` by then. -/
def strRoundAt (aexp : BitVec 64 → BitVec 64) (tdigits : BitVec 64) (rti : Nat) (a c : Decimal) :
    Except Fault (Nat × Decimal) :=
  if ¬ (a.sign = 0 ∨ a.sign = 1) then .ok (libInvarg, c)
  else if ¬ (c.sign = 0 ∨ c.sign = 1) then .ok (libInvarg, c)
  else if ¬ (rti = 0 ∨ rti = 1) then .ok (libInvarg, c)
  else if (a.len.toNat : Int) ≤ tdigits.toInt then .ok (strNormal, { c with digits := a.digits })
  else if rti = 0 then
    if tdigits.toInt < 0 then .error .outOfBounds
    else
      let rounding := a.digits.getD tdigits.toNat 0
      let c := truncateTo tdigits a c
      if rounding.toInt < 0 then .ok (strNormal, c)
      else if rounding.slt 53 then .ok (strNormal, c)
      else do
        let r ← strAdd ⟨a.sign, aexp c.exp, c.digits⟩ ⟨a.sign, aexp c.exp, [49]⟩ c
        return (strNormal, r.2)
  else .ok (strNormal, truncateTo tdigits a c)

def strRound (tdigits : BitVec 64) (rti : Nat) (a c : Decimal) : Except Fault (Nat × Decimal) :=
  strRoundAt (fun _ => a.exp) tdigits rti a c

/-! ## `str$divide` -/

/-- What the inner loop works on: `quotient_a`, `divisor`, `result_ptr[k]` and the status. -/
structure Remainder where
  quotientA : List Byte
  divisor : List Byte
  digit : Byte
  status : Nat
  deriving DecidableEq, Repr

/-- `while ( str$$ncompare(&quotient_a,&divisor) >= 0 )` -/
def subtractLoop (bsign : Nat) : Nat → Remainder → Except Fault (Option Remainder)
  | 0, _ => .ok none
  | steps + 1, r => do
    let (quotientA, divisor, order) ← ncompareTrim r.quotientA r.divisor
    if order = .lt then return some { r with quotientA, divisor }
    else
      -- `esign`, `eexp` and `temp` are written only
      let (status, e) ← strSub ⟨0, 0, quotientA⟩ ⟨bsign, 0, divisor⟩ ⟨0, 0, []⟩
      -- `Add zero's to normalize result exponent`, one after the other
      let quotientA := append e.digits (List.replicate e.exp.toInt.toNat zero)
      subtractLoop bsign steps ⟨quotientA, divisor, r.digit + 1, status⟩

/-- What the outer loop works on. Its counters are not bounded. -/
structure Division where
  k : Int
  precision : Int
  outlen : Nat
  result : List Byte
  quotientA : List Byte
  quotientB : List Byte
  divisor : List Byte
  /-- `*cexp` -/
  exp : BitVec 64
  status : Nat
  deriving DecidableEq, Repr

/-- `Split quotient into 2 parts`, or `Add a borrow zero`. -/
def Division.bringDown (s : Division) : Division :=
  match s.quotientB with
  | c :: quotientB => { s with quotientA := append s.quotientA [c], quotientB }
  | [] => { s with quotientA := append s.quotientA [zero], exp := s.exp - 1 }

/-- `result_ptr[k] = '0'` -/
def startDigit (result : List Byte) (k : Int) : Except Fault Unit :=
  if result = [] then .error .nullPointer
  else if k < 0 ∨ result.length ≤ k then .error .outOfBounds
  else .ok ()

/-- `result.dsc$a_pointer[k]`, also behind the end and in front of the beginning. -/
def readDigit (behind : Int → Byte) (result : List Byte) (k : Int) : Byte :=
  if 0 ≤ k ∧ k < result.length then result.getD k.toNat 0 else behind k

/-- `Increase the size of the result descriptor by 1`, and the next digit of the dividend. -/
def Division.opened (s : Division) : Division :=
  { s with
    result := get1 ((s.k + 1) % 65536).toNat s.result
    outlen := s.outlen + 1 : Division }.bringDown

/-- The end of the body with `quotient_a` compared to zero, and `k++`. -/
def Division.closed (s : Division) (behind : Int → Byte) (r : Remainder) (quotientA : List Byte)
    (order : Ordering) : Division :=
  let result := s.result.set s.k.toNat r.digit
  -- `k = precision + 1`, an `int`
  let k := if order = .eq ∧ s.quotientB = [] then (BitVec.ofInt 32 (s.precision + 1)).toInt else s.k
  { s with
    k := k + 1
    precision := if readDigit behind result k = zero then s.precision + 1 else s.precision
    result, quotientA
    divisor := r.divisor
    status := r.status }

/-- The body of the outer loop. -/
def divideStep (behind : Int → Byte) (bsign steps : Nat) (s : Division) :
    Except Fault (Option Division) := do
  startDigit s.opened.result s.opened.k
  match ← subtractLoop bsign steps ⟨s.opened.quotientA, s.opened.divisor, zero, s.opened.status⟩ with
  | none => return none
  | some r =>
    let (quotientA, _, order) ← ncompareTrim r.quotientA [zero]
    return some (s.opened.closed behind r quotientA order)

/-- `for ( k = 0; k <= precision; k++ )` -/
def divideLoop (behind : Int → Byte) (bsign : Nat) : Nat → Division → Except Fault (Option Division)
  | 0, _ => .ok none
  | steps + 1, s =>
    if s.precision < s.k then .ok (some s)
    else do
      match ← divideStep behind bsign steps s with
      | none => return none
      | some s => divideLoop behind bsign steps s

/-- `Get ready for the first digit` -/
def divideStart (a b : Decimal) (tdigits : BitVec 64) (rti : Nat) : Division where
  k := 0
  precision := if rti = 1 then tdigits.toInt + 1 else tdigits.toInt
  outlen := 0
  result := [0]
  quotientA := []
  quotientB := a.digits
  divisor := b.digits
  exp := a.exp - b.exp
  status := strNormal

/-- What is done behind the loops. -/
def divideEnd (csign : Nat) (tdigits : BitVec 64) (rti : Nat) (s : Division) :
    Except Fault (Nat × Decimal) := do
  let cdigits := get1 (s.outlen % 65536) []
  let result := lzerotrim s.result
  let r ← strRoundAt id tdigits (if rti = 0 then 1 else 0) ⟨csign, s.exp, result⟩
    ⟨csign, s.exp, cdigits⟩
  return (s.status, r.2)

/-- How a call ends that does not get to the loops. -/
def divideEarly (a b : Decimal) : Option Nat :=
  if ∀ c ∈ b.digits, c = zero then some strDivbyZer
  else if ¬ signsValid a b then some libInvarg
  else if ∀ c ∈ a.digits, c = zero then some strNormal
  else none

/-- `str$divide` -/
def strDivide (behind : Int → Byte) (steps : Nat) (a b : Decimal) (tdigits : BitVec 64) (rti : Nat)
    (c : Decimal) : Except Fault (Option (Nat × Decimal)) := do
  let csign := if ¬ signsValid a b then c.sign else if a.sign = b.sign then 0 else 1
  let digits ← strcpyZero c.digits
  match divideEarly a b with
  | some status => return some (status, ⟨csign, c.exp, digits⟩)
  | none =>
    match ← divideLoop behind b.sign steps (divideStart a b tdigits rti) with
    | none => return none
    | some s =>
      let r ← divideEnd csign tdigits rti s
      return some r

end FreeVMS.Rtl.Num
