import FreeVMS.Rtl.Numeral
import FreeVMS.Lib.Run

/-!
# Formatted output

`rtl$sprint` with its macros.  The state holds what is left of the output, both cursors and the next
argument, and a log of the characters that were stored; every `goto Done` ends the run with that state.
The format is memory without an end, as the end tests of the source are at a few places only.  Signed
operations whose result is out of range are a parameter, and so are the operations on `double`.
-/

namespace FreeVMS.Rtl.Sprint

/-- A character that was stored at `pos`, with the two cursors as they were before. -/
structure Write where
  pos : Nat
  ch : Byte
  p : Nat
  strPtr : Nat
deriving DecidableEq, Repr

/-- `size`, `p` as its distance from `&(str_desc->c[0])`, `str_ptr` and `arg_ptr`. -/
structure Out where
  size : Nat
  p : Nat
  strPtr : Nat
  argPtr : Nat
  written : List Write
deriving DecidableEq, Repr

/-- `p - &(str_desc->c[0])` at `Done` -/
def Out.lengthTrim (o : Out) : Nat := o.p

inductive Halt where
  /-- at `Done` -/
  | done (o : Out)
  /-- where C says nothing -/
  | undefined
  /-- out of fuel -/
  | diverge
deriving DecidableEq, Repr

abbrev Print (α : Type) := StateT Out (Except Halt) α

/-- `struct vms$string` of the format. -/
structure Format where
  lengthTrim : Nat
  c : Nat → Byte

/-- What a signed operation gives for a result that is out of range, `none` where that is undefined. -/
structure Overflow where
  int : Int → Option Int
  long : Int → Option Int

/-- The operations on `double`. -/
structure Floating where
  /-- `fval >= 0.0` -/
  nonneg : BitVec 64 → Bool
  /-- `fval < 0.0` -/
  negative : BitVec 64 → Bool
  /-- `fval >= 1.0` -/
  oneOrMore : BitVec 64 → Bool
  /-- `-fval` -/
  neg : BitVec 64 → BitVec 64
  /-- `(unsigned long) fval`, `none` where that is undefined -/
  toUlong : BitVec 64 → Option (BitVec 64)
  /-- `fval - (double) uval` -/
  subUlong : BitVec 64 → BitVec 64 → BitVec 64
  /-- `fval * 10.0` -/
  timesTen : BitVec 64 → BitVec 64

/-- What an element of `arg` points to, read with each of the types. -/
structure Arg where
  int : BitVec 32
  long : BitVec 64
  double : BitVec 64
  thread : BitVec 64
  /-- the first `length_trim` characters of a `struct vms$string` -/
  string : List Byte

structure Env where
  arg : Nat → Arg
  overflow : Overflow
  floating : Floating

/-- `goto Done` -/
def toDone {α : Type} : Print α := fun o => .error (.done o)

def halt {α : Type} (h : Halt) : Print α := fun _ => .error h

/-- A conversion or an operation that may be undefined. -/
def defined {α : Type} : Option α → Print α
  | some x => pure x
  | none => halt .undefined

/-- `str_desc->c[pos] = ch`, with both cursors and the size. -/
def Out.store (pos : Nat) (ch : Byte) (o : Out) : Out :=
  { size := o.size - 1, p := o.p + 1, strPtr := o.strPtr + 1, argPtr := o.argPtr,
    written := o.written ++ [⟨pos, ch, o.p, o.strPtr⟩] }

/-- `PUTCH` -/
def putch (ch : Byte) : Print Unit := fun o =>
  if o.size = 0 then toDone o else .ok ((), o.store o.p ch)

/-- `PUTSTR` -/
def putstr : List Byte → Print Unit
  | [] => pure ()
  | ch :: st => do
      putch ch
      putstr st

/-- `while (cnt-- > 0) PUTCH(ch)` -/
def pad (ch : Byte) : Nat → Print Unit
  | 0 => pure ()
  | cnt + 1 => do
      putch ch
      pad ch cnt

/-- `arg[arg_ptr++]` -/
def nextArg (e : Env) : Print Arg := fun o => .ok (e.arg o.argPtr, { o with argPtr := o.argPtr + 1 })

/-- The characters of a string constant. -/
def text (s : String) : List Byte := s.toList.map chr

structure Flags where
  alternate : Bool
  left : Bool
  sign : Bool
  space : Bool
  zero : Bool
deriving DecidableEq, Repr

def noFlags : Flags := ⟨false, false, false, false, false⟩

/-- What a conversion specification says. -/
structure Spec where
  flags : Flags
  width : Int
  precision : Int
  long : Bool
  /-- the conversion character -/
  conv : Byte
deriving DecidableEq, Repr

section

variable (e : Env)

/-- An `int` operation with the mathematical result `x`. -/
def int (x : Int) : Print Int :=
  if -2 ^ 31 ≤ x ∧ x < 2 ^ 31 then pure x else defined (e.overflow.int x)

/-- A `long` operation with the mathematical result `x`. -/
def long (x : Int) : Print Int :=
  if -2 ^ 63 ≤ x ∧ x < 2 ^ 63 then pure x else defined (e.overflow.long x)

/-- `LEFTPAD` -/
def leftPad (f : Flags) (num : Int) : Print Unit :=
  if !f.left ∧ num > 0 then pad (if f.zero then chr '0' else chr ' ') num.toNat else pure ()

/-- `RIGHTPAD` -/
def rightPad (f : Flags) (num : Int) : Print Unit :=
  if f.left ∧ num > 0 then pad (chr ' ') num.toNat else pure ()

/-! ### The conversions -/

/-- The loop that stores the digits in `convert`, the lowest first; `k` of its elements are free. -/
def convert (digits : List Byte) (base : Nat) : Nat → Nat → Print (List Byte)
  | 0, _ => halt .undefined
  | k + 1, uval =>
      if uval / base > 0 then do
        let cs ← convert digits base k (uval / base)
        return digits.getD (uval % base) 0 :: cs
      else return [digits.getD (uval % base) 0]

/-- `sizeof convert` -/
def convertSize : Nat := 128

/-- `PUTDEC` -/
def putdec (num : Nat) : Print Unit := do
  let cs ← convert (text "0123456789") 10 convertSize num
  putstr cs.reverse

/-- `f_long ? (*((long *) (arg[arg_ptr++]))) : (*((int *) (arg[arg_ptr++])))` as `uval` -/
def readNumber (f_long : Bool) : Print (BitVec 64) := do
  let a ← nextArg e
  return if f_long then a.long else a.int.signExtend 64

/-- Check for sign character. -/
def signChar (f : Flags) (uval : BitVec 64) : Option Byte :=
  if f.sign ∧ 0 ≤ uval.toInt then some (chr '+')
  else if f.space ∧ 0 ≤ uval.toInt then some (chr ' ')
  else if uval.toInt < 0 then some (chr '-')
  else none

/-- `uval = -((long) uval)` where the sign character is a minus. -/
def magnitude (sign : Bool) (uval : BitVec 64) : Print (BitVec 64) :=
  if sign ∧ uval.toInt < 0 then do
    let x ← long e (-uval.toInt)
    return BitVec.ofInt 64 x
  else return uval

/-- The number prefix. -/
def prefixOf (base : Nat) : List Byte :=
  if base = 2 then text "% " else if base = 8 then [chr 'o'] else if base = 16 then text "$ " else []

def signSize (signch : Option Byte) (numpr : Int) : Print Int :=
  if signch.isSome then int e (numpr + 1) else pure numpr

def prefixSize (f : Flags) (base : Nat) (numpr : Int) : Print Int :=
  if f.alternate then
    if base = 8 then int e (numpr + 1)
    else if base = 16 ∨ base = 2 then int e (numpr + 2)
    else pure numpr
  else pure numpr

/-- Calculate the actual size of the printed number. -/
def printedSize (f : Flags) (base : Nat) (signch : Option Byte) (numdigits precision : Int) :
    Print Int := do
  let numpr ← signSize e signch (if numdigits > precision then numdigits else precision)
  prefixSize e f base numpr

/-- Insert left padding. -/
def insertLeft (f : Flags) (width numpr : Int) : Print Int :=
  if !f.left ∧ width > numpr then
    if f.zero then pure width
    else do
      let i ← int e (width - numpr)
      pad (chr ' ') i.toNat
      return numpr
  else pure numpr

/-- Insert sign character. -/
def insertSign (signch : Option Byte) (numpr : Int) : Print Int :=
  match signch with
  | some ch => do
      putch ch
      int e (numpr - 1)
  | none => pure numpr

/-- Insert number prefix. -/
def insertPrefix (f : Flags) (base : Nat) (numpr : Int) : Print Int :=
  if f.alternate ∧ prefixOf base ≠ [] then do
    let numpr ← int e (numpr - (prefixOf base).length)
    putstr (prefixOf base)
    return numpr
  else pure numpr

/-- From `Print_unsigned` and `Print_signed` to the `break`; the digits come from `digits`. -/
def printNumber (f : Flags) (width precision : Int) (base : Nat) (digits : List Byte) (sign : Bool)
    (uval : BitVec 64) : Print Int := do
  let signch := if sign then signChar f uval else none
  let uval ← magnitude e sign uval
  let cs ← convert digits base convertSize uval.toNat
  let numpr ← printedSize e f base signch cs.length precision
  let numpr ← insertLeft e f width numpr
  let numpr ← insertSign e signch numpr
  let numpr ← insertPrefix e f base numpr
  -- zero padding, the number and what is to its right
  let i ← int e (numpr - cs.length)
  pad (chr '0') i.toNat
  putstr cs.reverse
  let rest ← int e (width - numpr)
  let rest ← int e (rest - if signch.isSome then 1 else 0)
  rightPad f rest
  return numpr

/-- `while (fval >= 1.0) fval -= (double) (unsigned long) fval;` -/
def fraction : Nat → BitVec 64 → Print (BitVec 64)
  | 0, _ => halt .diverge
  | k + 1, fval =>
      if e.floating.oneOrMore fval then do
        let uval ← defined (e.floating.toUlong fval)
        fraction k (e.floating.subUlong fval uval)
      else return fval

/-- Insert precision digits. -/
def precisionDigits : Nat → BitVec 64 → Print Unit
  | 0, _ => pure ()
  | precision + 1, fval => do
      let fval := e.floating.timesTen fval
      let uval ← defined (e.floating.toUlong fval)
      putch (chr '0' + uval.setWidth 8)
      precisionDigits precision (e.floating.subUlong fval uval)

/-- The size of a `double`, with `numdigits` in front of the point. -/
def floatSize (signch : Option Byte) (numdigits precision : Int) : Print Int :=
  let numpr := numdigits + if signch.isSome then 1 else 0
  if precision > 0 then do
    let more ← int e (1 + precision)
    int e (numpr + more)
  else pure numpr

/-- Insert precision. -/
def insertPrecision (fuel : Nat) (precision : Int) (fval : BitVec 64) : Print Unit :=
  if precision > 0 then do
    let fval ← fraction e fuel fval
    putch (chr '.')
    precisionDigits e precision.toNat fval
  else pure ()

/-- The sign character of a `double`. -/
def floatSign (f : Flags) (fval : BitVec 64) : Option Byte :=
  if f.sign ∧ e.floating.nonneg fval then some (chr '+')
  else if f.space ∧ e.floating.nonneg fval then some (chr ' ')
  else if e.floating.negative fval then some (chr '-')
  else none

/-- `case 'f'` -/
def printFloat (fuel : Nat) (f : Flags) (width precision : Int) : Print Int := do
  let a ← nextArg e
  let precision := if precision = -1 then 6 else precision
  let signch := floatSign e f a.double
  -- `fval = -fval` stands behind the minus
  let fval := if signch = some (chr '-') then e.floating.neg a.double else a.double
  let uval ← defined (e.floating.toUlong fval)
  let cs ← convert (text "0123456789") 10 convertSize uval.toNat
  let numpr ← floatSize e signch cs.length precision
  let cnt ← int e (width - numpr)
  leftPad f cnt
  putstr signch.toList
  putstr cs.reverse
  insertPrecision e fuel precision fval
  let cnt ← int e (width - numpr)
  rightPad f cnt
  return numpr

/-- `tid.global.X.thread_no` -/
def threadNo (tid : BitVec 64) : Nat := tid.toNat / 2 ^ 32

/-- `tid.global.X.version` -/
def version (tid : BitVec 64) : Nat := tid.toNat % 2 ^ 32

/-- `tid.local.X.__zeros` -/
def zeros (tid : BitVec 64) : Nat := tid.toNat % 2 ^ 6

/-- `tid.local.X.local_id` -/
def localId (tid : BitVec 64) : Nat := tid.toNat / 2 ^ 6

/-- `case 't'` -/
def printThread : Print Unit := do
  let a ← nextArg e
  let tid := a.thread
  if tid = 0 then putstr (text "NIL THREAD IDENTIFIER")
  -- `L4_IsGlobalId`
  else if zeros tid ≠ 0 then
    putstr (text "GlobalThreadId=")
    putdec (threadNo tid)
    putstr (text ", ver=")
    putdec (version tid)
  -- `L4_IsLocalId`
  else if zeros tid = 0 then
    putstr (text "LocalThreadid=")
    putdec (localId tid)
  else
    putstr (text "MalformedThreadId=")
    putdec tid.toNat

/-- Calculate printed size, and what is to the left of a string: without a width nothing is done, and
    `numpr` stays what it was. -/
def stringSize (f : Flags) (width precision numpr : Int) (string : List Byte) : Print Int :=
  if width > 0 then do
    let length : Int := (string.length : Int).bmod (2 ^ 32)
    let numpr := if 0 ≤ precision ∧ precision < length then precision else length
    let cnt ← int e (width - numpr)
    leftPad f cnt
    return numpr
  else pure numpr

/-- `case 's'` -/
def printString (f : Flags) (width precision numpr : Int) : Print Int := do
  let a ← nextArg e
  let numpr ← stringSize e f width precision numpr a.string
  putstr (if 0 ≤ precision then a.string.take precision.toNat else a.string)
  let cnt ← int e (width - numpr)
  rightPad f cnt
  return numpr

/-- `PUTCH((*((int *) (arg[arg_ptr++]))))`, whose argument is read behind the test of `size`. -/
def putArg : Print Unit := fun o =>
  if o.size = 0 then toDone o else (do let a ← nextArg e; putch (a.int.setWidth 8) : Print Unit) o

/-- The `switch` over the conversion character: `numpr` behind it. -/
def conversion (fuel : Nat) (s : Spec) (numpr : Int) : Print Int :=
  let unsigned (base : Nat) (digits : String) : Print Int := do
    let uval ← readNumber e s.long
    printNumber e s.flags s.width s.precision base (text digits) false uval
  if s.conv = chr 'b' then unsigned 2 "01"
  else if s.conv = chr 'o' then unsigned 8 "01234567"
  else if s.conv = chr 'p' then do
    -- as `x` with `f_long`, and with `sizeof(long) * 2` as precision and as width
    let uval ← readNumber e true
    printNumber e { s.flags with alternate := true } 16 16 16 (text "0123456789abcdef") false uval
  else if s.conv = chr 'x' then unsigned 16 "0123456789abcdef"
  else if s.conv = chr 'X' then unsigned 16 "0123456789ABCDEF"
  else if s.conv = chr 'd' ∨ s.conv = chr 'i' then do
    let uval ← readNumber e s.long
    printNumber e s.flags s.width s.precision 10 (text "0123456789") true uval
  else if s.conv = chr 'u' then unsigned 10 "0123456789"
  else if s.conv = chr 'f' then printFloat e fuel s.flags s.width s.precision
  else if s.conv = chr 't' then do
    printThread e
    return numpr
  else if s.conv = chr 's' then printString e s.flags s.width s.precision numpr
  else if s.conv = chr 'c' then do
    putArg e
    return numpr
  else if s.conv = chr '%' then do
    putch (chr '%')
    return numpr
  else do
    putch (chr '%')
    putch s.conv
    return numpr

/-! ### The format -/

def isFlag (c : Byte) : Bool :=
  c = chr '-' ∨ c = chr '+' ∨ c = chr ' ' ∨ c = chr '0' ∨ c = chr '#'

def Flags.set (f : Flags) (c : Byte) : Flags :=
  if c = chr '-' then { f with left := true }
  else if c = chr '+' then { f with sign := true }
  else if c = chr ' ' then { f with space := true }
  else if c = chr '0' then { f with zero := true }
  else if c = chr '#' then { f with alternate := true }
  else f

/-- Parse flags. -/
def parseFlags (c : Nat → Byte) : Nat → Flags → Nat → Print (Flags × Nat)
  | 0, _, _ => halt .diverge
  | k + 1, f, fmtPtr =>
      if isFlag (c fmtPtr) then parseFlags c k (f.set (c fmtPtr)) (fmtPtr + 1) else return (f, fmtPtr)

/-- The loop over the digits of a width or a precision: `more` is the test it is left by. -/
def parseDigits (more : Byte → Bool) (c : Nat → Byte) : Nat → Int → Nat → Print (Int × Nat)
  | 0, _, _ => halt .diverge
  | k + 1, num, fmtPtr =>
      if more (c fmtPtr) then do
        let num ← int e (num * 10)
        let num ← int e (num + (((c fmtPtr).toNat : Int) - 48))
        parseDigits more c k num (fmtPtr + 1)
      else return (num, fmtPtr)

/-- `(c >= '0') && (c <= '9')` -/
def isDigit (c : Byte) : Bool := IsDigit c

/-- `(c >= 0) && (c <= '9')` of an `unsigned char` -/
def upToNine (c : Byte) : Bool := c.toNat ≤ 57

/-- Parse field width; the `*` itself is not stepped over. -/
def parseWidth (fuel : Nat) (c : Nat → Byte) (fmtPtr : Nat) : Print (Int × Nat) :=
  if c fmtPtr = chr '*' then do
    let a ← nextArg e
    return (a.int.toInt, fmtPtr)
  else if isDigit (c fmtPtr) then parseDigits e isDigit c fuel 0 fmtPtr
  else return (-1, fmtPtr)

/-- Parse precision. -/
def parsePrecision (fuel : Nat) (c : Nat → Byte) (fmtPtr : Nat) : Print (Int × Nat) :=
  if c fmtPtr = chr '.' then
    if c (fmtPtr + 1) = chr '*' then do
      let a ← nextArg e
      return (a.int.toInt, fmtPtr + 2)
    else if isDigit (c (fmtPtr + 1)) then parseDigits e upToNine c fuel 0 (fmtPtr + 1)
    else return (-1, fmtPtr + 1)
  else return (-1, fmtPtr)

def isModifier (c : Byte) : Bool := c = chr 'h' ∨ c = chr 'l' ∨ c = chr 'L'

/-- Everything behind the flags: the specification and where it ends. -/
def parseSpec (fuel : Nat) (c : Nat → Byte) (f : Flags) (fmtPtr : Nat) : Print (Spec × Nat) := do
  let (width, fmtPtr) ← parseWidth e fuel c fmtPtr
  let (precision, fmtPtr) ← parsePrecision e fuel c fmtPtr
  let f_long : Bool := c fmtPtr = chr 'l'
  let fmtPtr := if isModifier (c fmtPtr) then fmtPtr + 1 else fmtPtr
  return (⟨f, width, precision, f_long, c fmtPtr⟩, fmtPtr + 1)

/-- Copy characters until we encounter `%`, and step over that. -/
def copy (fmt : Format) : Nat → Nat → Print Nat
  | 0, _ => halt .diverge
  | k + 1, fmtPtr =>
      if fmt.c fmtPtr = chr '%' then return fmtPtr + 1
      else fun o =>
        if o.size = 0 ∨ fmtPtr = fmt.lengthTrim then toDone o
        else copy fmt k (fmtPtr + 1) (o.store o.strPtr (fmt.c fmtPtr))

/-- `if ((fmt_ptr - 1) == fmt_desc->length_trim) goto Done;` -/
def endTest (fmt : Format) (fmtPtr : Nat) : Print Unit :=
  if fmtPtr - 1 = fmt.lengthTrim then toDone else pure ()

/-- A conversion specification behind its `%`. -/
def parse (fuel : Nat) (fmt : Format) (fmtPtr : Nat) : Print (Spec × Nat) := do
  let (f, fmtPtr) ← parseFlags fmt.c fuel noFlags fmtPtr
  endTest fmt fmtPtr
  parseSpec e fuel fmt.c f fmtPtr

/-- The test of `while (size > 0)` -/
def sizeTest : Print Unit := fun o => if o.size = 0 then toDone o else .ok ((), o)

/-- Once through `while (size > 0)`, with `fmt_ptr` and `numpr`. -/
def pass (fuel : Nat) (fmt : Format) (fmtPtr : Nat) (numpr : Int) : Print (Nat × Int) := do
  sizeTest
  let fmtPtr ← copy fmt fuel fmtPtr
  endTest fmt fmtPtr
  let (s, fmtPtr) ← parse e fuel fmt fmtPtr
  let numpr ← conversion e fuel s numpr
  return (fmtPtr, numpr)

/-- `while (size > 0)` -/
def passes (fuel : Nat) (fmt : Format) : Nat → Nat → Int → Out → Halt
  | 0, _, _, _ => .diverge
  | k + 1, fmtPtr, numpr, o =>
      match pass e fuel fmt fmtPtr numpr o with
      | .ok ((fmtPtr, numpr), o) => passes fuel fmt k fmtPtr numpr o
      | .error h => h

/-- The state at the start, for an output of `length` characters. -/
def Out.start (length : Nat) : Out := ⟨length, 0, 0, 0, []⟩

/-- `rtl$sprint` -/
def rtlSprint (fuel : Nat) (fmt : Format) (length : Nat) : Halt :=
  if fmt.lengthTrim = 0 then
    match putstr (text "(NULLIFIED FORMAT DESCRIPTOR)") (Out.start length) with
    | .ok (_, o) => .done o
    | .error h => h
  else passes e fuel fmt fuel 0 0 (Out.start length)

end

end FreeVMS.Rtl.Sprint
