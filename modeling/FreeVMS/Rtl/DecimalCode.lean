import FreeVMS.Rtl.Decimal
import FreeVMS.Rtl.StrDesc

/-!
# Sums, differences and products of decimals

`str$add`, `str$sub` and `str$mul` over dynamic strings, with their working storage. A routine that
goes through its storage from the right takes the cells as a list, the rightmost first.
-/

namespace FreeVMS.Rtl.Num

def strNormal : Nat := Str.strNormal

def strTru : Nat := Str.strTru

def strFatinterr : Nat := Str.strFatinterr

def libInvarg : Nat := 1409588

/-- `MAXSTR` -/
def maxstr : Nat := 132000

/-- `MAXUINT16` -/
def maxUint16 : Nat := 65536

/-! ## Working storage -/

/-- `calloc (MAXSTR, 1)` and what is stored there. -/
abbrev Cells := Nat → Byte

/-- The copy of an operand. -/
def load (s : List Byte) : Cells := fun i => s.getD i 0

/-- The first `i` cells, the last of them first. -/
def columns (a : Cells) : Nat → List Byte
  | 0 => []
  | i + 1 => a i :: columns a i

/-- `c - '0'` -/
def offset (c : Byte) : Int := c.toInt - 48

/-- `n + '0'` in a `char` -/
def toChr (n : Int) : Byte := BitVec.ofInt 8 (n + 48)

/-- `unsigned short` length of an operand -/
def Decimal.len (d : Decimal) : BitVec 16 := BitVec.ofNat 16 d.digits.length

theorem Decimal.toNat_len {d : Decimal} (h : d.digits.length ≤ 65535) :
    d.len.toNat = d.digits.length := by
  rw [Decimal.len, BitVec.toNat_ofNat, Nat.mod_eq_of_lt (by omega)]

/-- The signs are 0 and 1. -/
def signsValid (a b : Decimal) : Bool := (a.sign = 1 ∨ a.sign = 0) ∧ (b.sign = 1 ∨ b.sign = 0)

def maxExp (a b : Decimal) : BitVec 64 := if b.exp.slt a.exp then a.exp else b.exp

def minExp (a b : Decimal) : BitVec 64 := if b.exp.slt a.exp then b.exp else a.exp

/-- The loop that fills the result's buffer of `length` bytes. -/
def fill (length : BitVec 16) (cs : List Byte) : Except Fault (List Byte) :=
  if cs.length ≤ length.toNat then .ok cs
  else if length = 0 then .error .nullPointer
  else .error .outOfBounds

/-! ## `str$add` -/

/-- `Add zero's to the end of the number for remaining exponent` -/
def padSum (d : Decimal) (larger : Bool) (max min : BitVec 64) : Except Fault (Cells × BitVec 16) :=
  if larger then
    let stop := (d.len.setWidth 64 + max - min).toInt
    if maxstr < stop then .error .outOfBounds
    else .ok (fun i => if d.len.toNat ≤ i ∧ i < stop then zero else load d.digits i,
      d.len + (max - min).setWidth 16)
  else .ok (load d.digits, d.len)

/-- The sums of `k` columns, and the carry. -/
def addLoop (carry : Int) (xs ys : List Byte) : Nat → List Byte × Int
  | 0 => ([], carry)
  | k + 1 =>
    let sum := xs.head?.elim 0 offset + ys.head?.elim 0 offset + carry
    let rest := addLoop (if 9 < sum then 1 else 0) xs.tail ys.tail k
    (toChr (if 9 < sum then sum - 10 else sum) :: rest.1, rest.2)

/-- The end of `str$add`: the columns become the digits. -/
def addResult (sign : Nat) (exp : BitVec 64) (sums : List Byte × Int) :
    Except Fault (Nat × Decimal) := do
  let c := if sums.2 = 1 then toChr sums.2 :: sums.1.reverse else sums.1.reverse
  let status := if maxUint16 < c.length then strTru else strNormal
  let c := c.take maxUint16
  let s ← fill (BitVec.ofNat 16 c.length) c
  let d ← trim sign exp s
  return (status, d)

/-- `str$add` behind the dispatch on opposite signs. -/
def addEqual (a b c : Decimal) : Except Fault (Nat × Decimal) :=
  let csign := if a.sign = 1 ∧ b.sign = 1 then 1 else 0
  if c.digits ≠ [] then .ok (strFatinterr, ⟨csign, c.exp, []⟩)
  else if ¬ signsValid a b then .ok (libInvarg, ⟨csign, c.exp, []⟩)
  else
    let aSize := a.exp + a.len.setWidth 64
    let bSize := b.exp + b.len.setWidth 64
    let maxSize := if bSize.slt aSize then aSize else bSize
    let minSize := if bSize.slt aSize then bSize else aSize
    -- do not overlap: the largest is returned
    if BitVec.slt 65535 (maxSize - minSize) then
      .ok (strTru, if b.exp.slt a.exp then ⟨csign, a.exp, a.digits⟩ else ⟨csign, b.exp, b.digits⟩)
    else do
      let x ← padSum a (b.exp.slt a.exp) (maxExp a b) (minExp a b)
      let y ← padSum b (a.exp.slt b.exp) (maxExp a b) (minExp a b)
      addResult csign (minExp a b) (addLoop 0 (columns x.1 x.2.toNat) (columns y.1 y.2.toNat)
        (max x.2.toNat y.2.toNat))

/-! ## `str$sub` -/

/-- The characters in front of the first NUL, among `n`. -/
def text (a : Cells) (i : Nat) : Nat → List Byte
  | 0 => []
  | n + 1 => if a i = 0 then [] else a i :: text a (i + 1) n

def compareLoop : List Byte → List Byte → Ordering
  | c :: s, d :: t => if d.slt c then .gt else if c.slt d then .lt else compareLoop s t
  | _, _ => .eq

/-- The longer text is the larger; texts of one length by their characters. The lengths are
    `unsigned short`. -/
def compareText (s t : List Byte) : Ordering :=
  if t.length % 65536 < s.length % 65536 then .gt
  else if s.length % 65536 < t.length % 65536 then .lt
  else compareLoop (s.take (s.length % 65536)) (t.take (t.length % 65536))

/-- `lib$$ncompare` -/
def ncompare (a b : Cells) : Ordering := compareText (text a 0 maxstr) (text b 0 maxstr)

/-- The padding in `str$sub`: its loop stores a zero in the same cell every time. -/
def padDifference (d : Decimal) (min : BitVec 64) : Except Fault Cells :=
  let cell := (d.len.setWidth 64 + d.exp - 1).toInt
  if (d.exp.setWidth 32).toInt ≤ (min.setWidth 32).toInt then .ok (load d.digits)
  else if cell < 0 ∨ maxstr ≤ cell then .error .outOfBounds
  else .ok (Function.update (load d.digits) cell.toNat zero)

/-- The `New adjusted string length with zero's`, an `int`. -/
def adjusted (d : Decimal) (min : BitVec 64) : BitVec 32 :=
  d.len.setWidth 32 + d.exp.setWidth 32 - min.setWidth 32

/-- What the signs and the comparison ask for. -/
inductive SubCase where
  /-- `str$add` of the operands without their signs, and then the sign -/
  | delegate (csign : Nat)
  | norm (csign : Nat)
  | rev (csign : Nat)
  deriving DecidableEq, Repr

/-- The `switch` on the comparison, with `POS` and `NEG` for 0 and 1. -/
def subCase (result : Ordering) (asign bsign : Nat) : SubCase :=
  match result with
  | .lt =>
    if asign = 1 ∧ bsign = 1 then .rev 0
    else if asign = 0 ∧ bsign = 0 then .rev 1
    else if asign = 0 ∧ bsign = 1 then .rev 0
    else .delegate 1
  | .eq =>
    if asign = 0 ∧ bsign = 0 then .norm 0
    else if asign = 0 ∧ bsign = 1 then .delegate 0
    else if asign = 1 ∧ bsign = 0 then .delegate 1
    else .norm 0
  | .gt =>
    if asign = 1 ∧ bsign = 1 then .norm 1
    else if asign = 0 ∧ bsign = 0 then .norm 0
    else if asign = 1 ∧ bsign = 0 then .delegate 1
    else .delegate 0

/-- `if (c > '0') c - '0' else 0` -/
def digitSum (c : Byte) : Int := if zero.slt c then offset c else 0

/-- The cells behind the one that borrows: whether one of them gives, and what is left. -/
def borrow : List Byte → Bool × List Byte
  | [] => (false, [])
  | c :: cs => if zero.slt c then (true, (c - 1) :: cs) else ((borrow cs).1, 57 :: (borrow cs).2)

/-- The columns of a difference in the order `NORM`: `xs` from `a`, `ys` from `b`. -/
def subNorm (xs : List Byte) : List Byte → Except Fault (List Byte)
  | [] => .ok (xs.map fun x => toChr (digitSum x))
  | y :: ys =>
    match xs with
    -- `a[-1]` is read
    | [] => .error .outOfBounds
    | x :: xs =>
      if x.slt y then do
        let rest ← subNorm (borrow xs).2 ys
        return toChr (digitSum x + (if (borrow xs).1 then 10 else 0) - offset y) :: rest
      else do
        let rest ← subNorm xs ys
        return toChr (digitSum x - offset y) :: rest

/-- `(b[j-2])--` -/
def takeOne : List Byte → Except Fault (List Byte)
  | [] => .error .outOfBounds
  | x :: xs => .ok ((x - 1) :: xs)

/-- The columns in the order `REV`: `xs` from `b`, `ys` from `a`. -/
def subRev (xs : List Byte) : List Byte → Except Fault (List Byte)
  | [] => .ok (xs.map fun x => toChr (digitSum x))
  | y :: ys =>
    match xs with
    | [] => .error .outOfBounds
    | x :: xs =>
      if x.slt y then do
        let xs ← takeOne xs
        let rest ← subRev xs ys
        return toChr (digitSum x + 10 - offset y) :: rest
      else do
        let rest ← subRev xs ys
        return toChr (digitSum x - offset y) :: rest

/-- The end of `str$sub`. -/
def subResult (sign : Nat) (exp : BitVec 64) (c : List Byte) : Except Fault (Nat × Decimal) := do
  let status := if maxUint16 < c.length then strTru else strNormal
  let maxLen := min c.length maxUint16
  let d ← trim sign exp (c.reverse.take (maxLen % 65536))
  return (status, d)

/-- `str$sub` -/
def strSub (a b c : Decimal) : Except Fault (Nat × Decimal) :=
  if ¬ signsValid a b then .ok (libInvarg, { c with digits := [] })
  else do
    let min := minExp a b
    let x ← padDifference a min
    let y ← padDifference b min
    let i := (adjusted a min).toInt
    let j := (adjusted b min).toInt
    if maxstr < i ∨ maxstr < j then .error .outOfBounds
    else
      match subCase (ncompare x y) a.sign b.sign with
      | .delegate csign =>
        let r ← addEqual { a with sign := 0 } { b with sign := 0 } ⟨c.sign, min, []⟩
        return (r.1, { r.2 with sign := csign })
      | .norm csign =>
        let out ← subNorm (columns x i.toNat) (columns y j.toNat)
        subResult csign min out
      | .rev csign =>
        let out ← subRev (columns y j.toNat) (columns x i.toNat)
        subResult csign min out

/-- `str$add` -/
def strAdd (a b c : Decimal) : Except Fault (Nat × Decimal) :=
  if (a.sign = 1 ∧ b.sign = 0) ∨ (a.sign = 0 ∧ b.sign = 1) then strSub a b c else addEqual a b c

/-! ## `str$mul` -/

/-- One row of the product: a digit times `xs` into the columns `cs`. A `char` holds what comes
    together in a column. -/
def mulRow (d : Int) : List Byte → Int → List Int → Int × List Int
  | [], carry, cs => (carry, cs)
  | x :: xs, carry, cs =>
    match cs with
    | c :: next :: cs =>
      let sum := d * offset x + carry
      let c := c + sum.tmod 10
      let rest := mulRow d xs ((sum - sum.tmod 10).tdiv 10)
        ((if 9 < c then next + 1 else next) :: cs)
      (rest.1, (if 9 < c then c - 10 else c) :: rest.2)
    | cs => (carry, cs)

/-- The rows. The carry of one goes into the next. -/
def mulRows (xs : List Byte) : List Byte → Int → List Int → Int × List Int
  | [], carry, cs => (carry, cs)
  | d :: ds, carry, cs =>
    let row := mulRow (offset d) xs carry cs
    let rest := mulRows xs ds row.1 row.2.tail
    (rest.1, row.2.head?.toList ++ rest.2)

/-- `strcpy (s3_ptr, "0")` -/
def strcpyZero : List Byte → Except Fault (List Byte)
  | [] => .error .nullPointer
  | [_] => .error .outOfBounds
  | _ :: _ :: s => .ok (zero :: 0 :: s)

theorem strcpyZero_ok {s : List Byte} (h : 2 ≤ s.length) :
    strcpyZero s = .ok (zero :: 0 :: s.drop 2) := by
  cases s with
  | nil => cases h
  | cons c s =>
    cases s with
    | nil => exact absurd h (Nat.lt_irrefl 1)
    | cons d s => rfl

/-- `str$mul` -/
def strMul (a b c : Decimal) : Except Fault (Nat × Decimal) := do
  let csign := if ¬ signsValid a b then c.sign else if a.sign = b.sign then 0 else 1
  let digits ← strcpyZero c.digits
  if ¬ signsValid a b then return (libInvarg, ⟨csign, c.exp, digits⟩)
  let s1Len := a.len.toNat
  let s2Len := b.len.toNat
  let maxLen := s1Len + s2Len
  let rows := mulRows (columns (load a.digits) s1Len) (columns (load b.digits) s2Len) 0
    (List.replicate (maxLen + 1) 0)
  -- `c[k] = carry`: behind the rows `k` is 1
  let k := if s2Len = 0 then maxLen else 1
  let out := (rows.2.set (maxLen - k) rows.1).reverse
  let status := if maxUint16 < maxLen then strTru else strNormal
  let maxLen := min maxLen maxUint16
  let s ← fill (BitVec.ofNat 16 maxLen + 1) ((out.take (maxLen + 1)).map toChr)
  let d ← trim csign (a.exp + b.exp) s
  return (status, d)

end FreeVMS.Rtl.Num
