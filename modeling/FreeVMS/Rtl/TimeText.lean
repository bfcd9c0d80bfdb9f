import FreeVMS.Rtl.Numeral
import FreeVMS.Rtl.VectorSpec

/-!
# Times as text

`sys_asctim.c` and `sys_bintim.c`: a quadword time as characters in a buffer, and back.  The year of an
absolute time and the days of a delta time are written by the same code, with spaces for the leading
zeros up to four places; what is not in a text is taken from the current time when it is read.
-/

namespace FreeVMS.Rtl

open Lib.Gregorian

def monthNames : List Byte :=
  ['-', 'J', 'A', 'N', '-', 'F', 'E', 'B', '-', 'M', 'A', 'R', '-', 'A', 'P', 'R', '-', 'M', 'A', 'Y',
    '-', 'J', 'U', 'N', '-', 'J', 'U', 'L', '-', 'A', 'U', 'G', '-', 'S', 'E', 'P', '-', 'O', 'C', 'T',
    '-', 'N', 'O', 'V', '-', 'D', 'E', 'C', '-'].map chr

/-! ### `sys$asctim` -/

/-- What was written to `timbuf`, and `length`, the room behind it. -/
structure Buffer where
  text : List Byte
  length : Nat

/-- `if (length > 0) { *chrptr++ = c; length--; }` -/
def Buffer.put (b : Buffer) (c : Byte) : Buffer :=
  if b.length > 0 then ⟨b.text ++ [c], b.length - 1⟩ else b

def Buffer.putAll (b : Buffer) (cs : List Byte) : Buffer := cs.foldl Buffer.put b

/-- A field of two digits. -/
def Buffer.putTwo (b : Buffer) (timval : Nat) : Buffer :=
  (b.put (digitChr (timval / 10))).put (digitChr (timval % 10))

/-- `while (length > 0 && timval < count && count > 1) { *chrptr++ = ' '; count /= 10; }`, where
    `count` is 1 with `places - 1` zeros; the places that are left. -/
def Buffer.pad (timval : Nat) : Nat → Buffer → Nat × Buffer
  | 0, b => (0, b)
  | 1, b => (1, b)
  | places + 2, b =>
      if b.length > 0 ∧ timval < 10 ^ (places + 1) then pad timval (places + 1) (b.put (chr ' '))
      else (places + 2, b)

/-- `while (length > 0 && count > 0) { *chrptr++ = '0' + (timval / count); timval = timval % count;
    count /= 10; }` -/
def Buffer.putDigits : Nat → Nat → Buffer → Buffer
  | 0, _, b => b
  | places + 1, timval, b =>
      putDigits places (timval % 10 ^ places) (b.put (digitChr (timval / 10 ^ places)))

/-- The common code for year number and delta days. -/
def Buffer.putNumber (b : Buffer) (timval : Nat) : Buffer :=
  let (places, b) := if timval < 10000 then b.pad timval 4 else (5, b)
  b.putDigits places timval

/-- Day and month. -/
def Buffer.putDay (b : Buffer) (wrktim : TimBuf) : Buffer :=
  let timval := wrktim.day.toNat
  let b := b.put (if timval / 10 = 0 then chr ' ' else digitChr (timval / 10))
  let b := b.put (digitChr (timval % 10))
  b.putAll ((monthNames.drop (wrktim.month.toNat * 4 - 4)).take 5)

def Buffer.putDate (b : Buffer) (wrktim : TimBuf) : Buffer :=
  let b :=
    if wrktim.year ≠ 0 then (b.putDay wrktim).putNumber wrktim.year.toNat
    else b.putNumber wrktim.day.toNat
  b.put (chr ' ')

def Buffer.putTime (b : Buffer) (wrktim : TimBuf) : Buffer :=
  let b := (b.putTwo wrktim.hour.toNat).put (chr ':')
  let b := (b.putTwo wrktim.minute.toNat).put (chr ':')
  let b := (b.putTwo wrktim.second.toNat).put (chr '.')
  b.putTwo wrktim.hundredth.toNat

/-- `sys$asctim` into a buffer of `length` characters: the status, and `*timlen` with what was
    written. -/
def sysAsctim (gettim : Nat × Quad) (length : Nat) (timadr : Option Quad) (cvtflg : Nat) :
    Nat × Option (Nat × List Byte) :=
  match sysNumtim gettim timadr with
  | (sts, none) => (sts, none)
  | (sts, some wrktim) =>
      if sts &&& 1 = 0 then (sts, none)
      else
        let b : Buffer := ⟨[], length⟩
        let b := if cvtflg = 0 then b.putDate wrktim else b
        let b := b.putTime wrktim
        (normal, some (length - b.length, b.text))

/-! ### `sys$bintim` -/

/-- The next character is a digit. -/
def digitNext : List Byte → Bool
  | [] => false
  | c :: _ => IsDigit c

/-- `while (length > 0 && *chrptr == ' ')` -/
def skipSpaces : List Byte → List Byte
  | [] => []
  | c :: cs => if c = chr ' ' then skipSpaces cs else c :: cs

/-- What an `int` keeps of a number that is too large for it. -/
def wrapInt (x : Int) : Int := x.bmod (2 ^ 32)

/-- `num = num * 10 + (*chrptr++ - '0')` over the digits. -/
def readDigits (num : Int) : List Byte → Int × List Byte
  | [] => (num, [])
  | c :: cs =>
      if IsDigit c then readDigits (wrapInt (num * 10 + (c.toNat - 48))) cs else (num, c :: cs)

/-- `num = num + tf * (*chrptr++ - '0'); tf = tf / 10;` over the digits. -/
def readHundredths (tf num : Int) : List Byte → Int × List Byte
  | [] => (num, [])
  | c :: cs =>
      if IsDigit c then readHundredths (tf / 10) (num + tf * (c.toNat - 48)) cs else (num, c :: cs)

/-- `while (num <= 12)` over the month names, `left` of them. -/
def findName (chrptr : List Byte) : Nat → Nat → List Byte → Nat
  | 0, num, _ => num
  | left + 1, num, mn =>
      if chrptr.take 3 = mn.take 3 then num else findName chrptr left (num + 1) (mn.drop 4)

/-- The day number, or -1. -/
def bintimDay (chrptr : List Byte) : Int × List Byte :=
  let chrptr := skipSpaces chrptr
  if digitNext chrptr then readDigits 0 chrptr else (-1, chrptr)

/-- Month and year, behind the first "-"; `wrktim` has the current time. -/
def bintimDate (wrktim : TimBuf) (num : Int) (chrptr : List Byte) : TimBuf × List Byte :=
  let wrktim := if num ≥ 0 then { wrktim with day := BitVec.ofInt 16 num } else wrktim
  let (wrktim, chrptr) :=
    if chrptr.length ≥ 3 ∧ chrptr.head? ≠ some (chr '-') then
      ({ wrktim with month := BitVec.ofNat 16 (findName chrptr 12 1 (monthNames.drop 1)) },
        chrptr.drop 3)
    else (wrktim, chrptr)
  match chrptr with
  | [] => (wrktim, [])
  | c :: rest =>
      if c = chr '-' then
        if digitNext rest then
          let (num, rest) := readDigits 0 rest
          ({ wrktim with year := BitVec.ofInt 16 num }, rest)
        else (wrktim, rest)
      else (wrktim, c :: rest)

/-- `wrktim[3 + tf] = num` -/
def TimBuf.setTime (wrktim : TimBuf) (tf : Nat) (num : BitVec 16) : TimBuf :=
  match tf with
  | 0 => { wrktim with hour := num }
  | 1 => { wrktim with minute := num }
  | _ => { wrktim with second := num }

/-- The loop over the time fields, with the separators that are left of `time_sep`. -/
def bintimFields : List Byte → Nat → TimBuf → List Byte → TimBuf × List Byte
  | [], _, wrktim, chrptr => (wrktim, chrptr)
  | sep :: seps, tf, wrktim, chrptr =>
      let (wrktim, chrptr) :=
        if digitNext chrptr then
          let (num, chrptr) := readDigits 0 chrptr
          let wrktim := wrktim.setTime tf (BitVec.ofInt 16 num)
          (if num > 59 then { wrktim with month := 13 } else wrktim, chrptr)
        else (wrktim, chrptr)
      match chrptr with
      | [] => (wrktim, [])
      | c :: rest =>
          if c = sep then bintimFields seps (tf + 1) wrktim rest else (wrktim, c :: rest)

/-- The day of a text, and its month and year when a "-" comes behind it; else it is a delta time.
    `now` is what `sys$numtim` leaves in `wrktim` for the current time. -/
def bintimStart (now : TimBuf) (chrptr : List Byte) : TimBuf × List Byte :=
  let (num, chrptr) := bintimDay chrptr
  let delta : TimBuf := ⟨0, 0, BitVec.ofInt 16 num, 0, 0, 0, 0⟩
  match chrptr with
  | [] => (delta, [])
  | c :: rest => if c = chr '-' then bintimDate now num rest else (delta, c :: rest)

/-- The time of day behind it. -/
def bintimEnd (wrktim : TimBuf) (chrptr : List Byte) : TimBuf × List Byte :=
  let chrptr := skipSpaces chrptr
  let (wrktim, chrptr) := bintimFields ([':', ':', '.'].map chr) 0 wrktim chrptr
  let (wrktim, chrptr) :=
    if digitNext chrptr then
      let (num, chrptr) := readHundredths 10 0 chrptr
      ({ wrktim with hundredth := BitVec.ofInt 16 num }, chrptr)
    else (wrktim, chrptr)
  (wrktim, skipSpaces chrptr)

/-- The words of a text, and what is left of it. -/
def bintimWords (now : TimBuf) (chrptr : List Byte) : TimBuf × List Byte :=
  let (wrktim, chrptr) := bintimStart now chrptr
  bintimEnd wrktim chrptr

/-- `sys$bintim`: the status and the new `*timadr`.  `stack` is what `wrktim` holds before it is
    written; it stays there when the current time cannot be had. -/
def sysBintim (combine : Int → Quad → Int → Option (Nat × Quad)) (gettim : Nat × Quad)
    (stack : TimBuf) (timbuf : List Byte) (timadr : Quad) : Option (Nat × Quad) :=
  let now := (sysNumtim gettim none).2.getD stack
  match bintimWords now timbuf with
  | (wrktim, []) => libCvtVectim combine wrktim timadr
  | (_, _ :: _) => some (ivTime, timadr)

end FreeVMS.Rtl
