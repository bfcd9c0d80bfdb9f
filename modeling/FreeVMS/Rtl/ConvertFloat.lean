import FreeVMS.Lib.BitField
import FreeVMS.Lib.BinaryFloat

/-!
# Conversion of floats

`cvt_convert_float.c`: VAX F and D floats and IEEE S and T floats, converted into each other.  The bits
of a float are a word, of which an F or an S float has the lower half.  The fraction goes through a
union of two bit-field structures, which is not initialized: `f` is what is in its place before.
-/

namespace FreeVMS.Rtl.Cvt

open Lib.BitField Lib.BinaryFloat

/-! ### The structures -/

namespace VaxF

def f1 : Member 7 := ⟨0⟩
def exp : Member 8 := ⟨7⟩
def sign : Member 1 := ⟨15⟩
def f2 : Member 16 := ⟨16⟩

end VaxF

namespace VaxD

def f1 : Member 7 := ⟨0⟩
def exp : Member 8 := ⟨7⟩
def sign : Member 1 := ⟨15⟩
def f2 : Member 16 := ⟨16⟩
def f3 : Member 16 := ⟨32⟩
def f4 : Member 16 := ⟨48⟩

end VaxD

namespace IeeS

def f2 : Member 16 := ⟨0⟩
def f1 : Member 7 := ⟨16⟩
def exp : Member 8 := ⟨23⟩
def sign : Member 1 := ⟨31⟩

end IeeS

namespace IeeT

def f4 : Member 16 := ⟨0⟩
def f3 : Member 16 := ⟨16⟩
def f2 : Member 16 := ⟨32⟩
def f1 : Member 4 := ⟨48⟩
def exp : Member 11 := ⟨52⟩
def sign : Member 1 := ⟨63⟩

end IeeT

/-- `_FRAC`; bit 25 to 27, between `four` and `three`, are padding here and in the other structure the
    upper bits of `four`, and bits 68 to 70 belong to `one` here only. -/
abbrev Frac := BitVec 96

namespace Exp8

def five : Member 9 := ⟨0⟩
def four : Member 16 := ⟨9⟩
def three : Member 16 := ⟨32⟩
def two : Member 16 := ⟨48⟩
def one : Member 7 := ⟨64⟩

end Exp8

namespace Exp11

def five : Member 12 := ⟨0⟩
def four : Member 16 := ⟨12⟩
def three : Member 16 := ⟨32⟩
def two : Member 16 := ⟨48⟩
def one : Member 4 := ⟨64⟩

end Exp11

/-- The places are those that the widths in the source give in units of 32 bits. -/
example : places 32 0 [7, 8, 1, 16] = [VaxF.f1.start, VaxF.exp.start, VaxF.sign.start, VaxF.f2.start] ∧
    places 32 0 [7, 8, 1, 16, 16, 16] = [VaxD.f1.start, VaxD.exp.start, VaxD.sign.start,
      VaxD.f2.start, VaxD.f3.start, VaxD.f4.start] ∧
    places 32 0 [16, 7, 8, 1] = [IeeS.f2.start, IeeS.f1.start, IeeS.exp.start, IeeS.sign.start] ∧
    places 32 0 [16, 16, 16, 4, 11, 1] = [IeeT.f4.start, IeeT.f3.start, IeeT.f2.start, IeeT.f1.start,
      IeeT.exp.start, IeeT.sign.start] ∧
    places 32 0 [9, 16, 16, 16, 7] = [Exp8.five.start, Exp8.four.start, Exp8.three.start,
      Exp8.two.start, Exp8.one.start] ∧
    places 32 0 [12, 16, 16, 16, 4] = [Exp11.five.start, Exp11.four.start, Exp11.three.start,
      Exp11.two.start, Exp11.one.start] := by
  decide

/-- `*l1` and `*l2` -/
def l1 : Member 32 := ⟨0⟩
def l2 : Member 32 := ⟨32⟩

/-! ### `cvt$convert_float` -/

/-- The float types that are converted. -/
inductive FloatType where
  | vaxF
  | vaxD
  | ieeeS
  | ieeeT
deriving DecidableEq, Repr

/-- `CVT$K_VAX_F`, `CVT$K_VAX_D`, `CVT$K_IEEE_S` and `CVT$K_IEEE_T` -/
def FloatType.code : FloatType → Int
  | vaxF => 0
  | vaxD => 1
  | ieeeS => 4
  | ieeeT => 5

/-- The cases of the switches. -/
def floatType (code : Int) : Option FloatType :=
  if code = FloatType.vaxF.code then some .vaxF
  else if code = FloatType.vaxD.code then some .vaxD
  else if code = FloatType.ieeeS.code then some .ieeeS
  else if code = FloatType.ieeeT.code then some .ieeeT
  else none

/-- `CVT$M_ROUND_TO_NEAREST | … | CVT$M_ERR_UNDERFLOW` -/
def validOptions : BitVec 32 := 0x1 ||| 0x2 ||| 0x4 ||| 0x8 ||| 0x10 ||| 0x20 ||| 0x40

/-- `CVT$_NORMAL` -/
def cvtNormal : Nat := 0x05fa8009
/-- `CVT$_INVINPTYP` -/
def invInpTyp : Nat := 0x05fa801c
/-- `CVT$_INVOPT` -/
def invOpt : Nat := 0x05fa8024
/-- `CVT$_INVOUTTYP` -/
def invOutTyp : Nat := 0x05fa802c
/-- `CVT$_INVVAL` -/
def invVal : Nat := 0x05fa8034
/-- `CVT$_NEGINF` -/
def negInf : Nat := 0x05fa803c
/-- `CVT$_OVERFLOW` -/
def overflow : Nat := 0x05fa804c
/-- `CVT$_POSINF` -/
def posInf : Nat := 0x05fa8054

/-- The local variables after the first switch.  (`denorm` is set there too, but never looked at.) -/
structure Unpacked where
  sign : BitVec 1
  exp : Int
  f : Frac
  zero : Bool
  inf : Bool
  over_ : Bool
  nan : Bool
  roprand : Bool

/-- The first switch: extract the bits from the input float and de-bias the exponent. -/
def unpack (f : Frac) (p : BitVec 64) : FloatType → Unpacked
  | .vaxF =>
      let exp := (VaxF.exp.get p).toNat
      let nan := l1.get p == 0x00008000
      { sign := VaxF.sign.get p
        exp := exp - 128
        f := f |> Exp8.one.set (VaxF.f1.get p) |> Exp8.two.set (VaxF.f2.get p) |> Exp8.three.set 0
          |> Exp8.four.set 0 |> Exp8.five.set 0
        zero := (exp == 0 || decide (254 ≤ exp)) && !nan
        inf := false
        over_ := false
        nan := nan
        roprand := false }
  | .vaxD =>
      let exp := (VaxD.exp.get p).toNat
      let nan := l1.get p == 0x00008000 && l2.get p == 0x00000000
      { sign := VaxD.sign.get p
        exp := exp - 128
        f := f |> Exp8.one.set (VaxD.f1.get p) |> Exp8.two.set (VaxD.f2.get p)
          |> Exp8.three.set (VaxD.f3.get p) |> Exp8.four.set (VaxD.f4.get p) |> Exp8.five.set 0
        zero := (exp == 0 || decide (254 ≤ exp)) && !nan
        inf := false
        over_ := false
        nan := nan
        roprand := false }
  | .ieeeS =>
      let exp := (IeeS.exp.get p).toNat
      let over_ := exp == 0xfe
      let nan := exp == 0xff
      { sign := IeeS.sign.get p
        exp := exp - 126
        f := f |> Exp8.one.set (IeeS.f1.get p) |> Exp8.two.set (IeeS.f2.get p) |> Exp8.three.set 0
          |> Exp8.four.set 0 |> Exp8.five.set 0
        zero := l1.get p == 0x00000000 || l1.get p == 0x80000000
        inf := l1.get p == 0x7f800000 || l1.get p == 0xff800000
        over_ := over_
        nan := nan
        roprand := over_ || nan }
  | .ieeeT =>
      let exp := (IeeT.exp.get p).toNat
      let over_ := exp == 0x7fe
      let nan := exp == 0x7ff
      { sign := IeeT.sign.get p
        exp := exp - 1022
        f := f |> Exp11.one.set (IeeT.f1.get p) |> Exp11.two.set (IeeT.f2.get p)
          |> Exp11.three.set (IeeT.f3.get p) |> Exp11.four.set (IeeT.f4.get p) |> Exp11.five.set 0
        zero := (l2.get p == 0x00000000 || l2.get p == 0x80000000) && l1.get p == 0
        inf := (l2.get p == 0x7ff00000 || l2.get p == 0xfff00000) && l1.get p == 0
        over_ := over_
        nan := nan
        roprand := over_ || nan }

/-- The second switch: poke the bits into the output float after re-biasing the exponent. -/
def pack (u : Unpacked) (o : BitVec 64) : FloatType → BitVec 64
  | .vaxF =>
      if u.zero then l1.set 0x00000000 o
      else if u.roprand then l1.set 0x00008000 o
      else
        let f := Exp8.three.set 0 u.f
        o |> VaxF.sign.set u.sign |> VaxF.exp.set (BitVec.ofInt 8 (u.exp + 128))
          |> VaxF.f1.set (Exp8.one.get f) |> VaxF.f2.set (Exp8.two.get f)
  | .vaxD =>
      if u.zero then o |> l2.set 0x00000000 |> l1.set 0x00000000
      else if u.roprand then o |> l2.set 0x00000000 |> l1.set 0x00008000
      else
        let f := Exp8.five.set 0 u.f
        o |> VaxD.sign.set u.sign |> VaxD.exp.set (BitVec.ofInt 8 (u.exp + 128))
          |> VaxD.f1.set (Exp8.one.get f) |> VaxD.f2.set (Exp8.two.get f)
          |> VaxD.f3.set (Exp8.three.get f) |> VaxD.f4.set (Exp8.four.get f)
  | .ieeeS =>
      if u.nan then l1.set 0x7fbfffff o
      else if u.zero then l1.set 0x00000000 o
      else
        let f := Exp8.three.set 0 u.f
        o |> IeeS.sign.set u.sign |> IeeS.exp.set (BitVec.ofInt 8 (u.exp + 126))
          |> IeeS.f1.set (Exp8.one.get f) |> IeeS.f2.set (Exp8.two.get f)
  | .ieeeT =>
      if u.nan then o |> l2.set 0x7ff7ffff |> l1.set 0xffffffff
      else if u.zero then o |> l2.set 0x00000000 |> l1.set 0x00000000
      else
        let f := Exp11.five.set 0 u.f
        o |> IeeT.sign.set u.sign |> IeeT.exp.set (BitVec.ofInt 11 (u.exp + 1022))
          |> IeeT.f1.set (Exp11.one.get f) |> IeeT.f2.set (Exp11.two.get f)
          |> IeeT.f3.set (Exp11.three.get f) |> IeeT.f4.set (Exp11.four.get f)

/-- The status codes at the end. -/
def Unpacked.status (u : Unpacked) : Nat :=
  if u.inf ∧ u.sign ≠ 0 then negInf
  else if u.inf ∧ u.sign = 0 then posInf
  else if u.nan then invVal
  else if u.over_ then overflow
  else cvtNormal

/-- `cvt$convert_float`: the status, and the output float, which was `oval`. -/
def convertFloat (f : Frac) (ival : BitVec 64) (itype : Int) (oval : BitVec 64) (otype : Int)
    (opt : BitVec 32) : Nat × BitVec 64 :=
  if opt &&& ~~~ validOptions ≠ 0 then (invOpt, oval)
  else
    match floatType itype with
    | none => (invInpTyp, oval)
    | some itype =>
        let u := unpack f ival itype
        match floatType otype with
        | none => (invOutTyp, oval)
        | some otype => (u.status, pack u oval otype)

/-! ### What the bits denote -/

namespace FloatType

/-- The formats, as OpenVMS and IEEE 754 have them. -/
def format : FloatType → Format
  | vaxF => ⟨23, 129, 1, 255⟩
  | vaxD => ⟨55, 129, 1, 255⟩
  | ieeeS => ⟨23, 127, 1, 254⟩
  | ieeeT => ⟨52, 1023, 1, 2046⟩

def negative (p : BitVec 64) : FloatType → Bool
  | vaxF => VaxF.sign.get p == 1
  | vaxD => VaxD.sign.get p == 1
  | ieeeS => IeeS.sign.get p == 1
  | ieeeT => IeeT.sign.get p == 1

def expField (p : BitVec 64) : FloatType → Nat
  | vaxF => (VaxF.exp.get p).toNat
  | vaxD => (VaxD.exp.get p).toNat
  | ieeeS => (IeeS.exp.get p).toNat
  | ieeeT => (IeeT.exp.get p).toNat

/-- The fraction, its words put together with the uppermost first. -/
def fraction (p : BitVec 64) : FloatType → Nat
  | vaxF => (VaxF.f1.get p).toNat * 2 ^ 16 + (VaxF.f2.get p).toNat
  | vaxD => (VaxD.f1.get p).toNat * 2 ^ 48 + (VaxD.f2.get p).toNat * 2 ^ 32 +
      (VaxD.f3.get p).toNat * 2 ^ 16 + (VaxD.f4.get p).toNat
  | ieeeS => (IeeS.f1.get p).toNat * 2 ^ 16 + (IeeS.f2.get p).toNat
  | ieeeT => (IeeT.f1.get p).toNat * 2 ^ 48 + (IeeT.f2.get p).toNat * 2 ^ 32 +
      (IeeT.f3.get p).toNat * 2 ^ 16 + (IeeT.f4.get p).toNat

/-- VAX floats have no infinities, and no numbers with the exponent 0 but zero. -/
def vax : FloatType → Bool
  | vaxF => true
  | vaxD => true
  | ieeeS => false
  | ieeeT => false

/-- A normal number. -/
def Normal (t : FloatType) (p : BitVec 64) : Prop :=
  t.format.minExp ≤ t.expField p ∧ t.expField p ≤ t.format.maxExp

instance (t : FloatType) (p : BitVec 64) : Decidable (t.Normal p) :=
  inferInstanceAs (Decidable (_ ∧ _))

/-- The number that a float stands for; nothing for a reserved operand, an infinity, or a NaN. -/
def denotes (t : FloatType) (p : BitVec 64) : Option ℚ :=
  if t.Normal p then some (t.format.normal (t.negative p) (t.expField p) (t.fraction p))
  else if t.expField p ≠ 0 then none
  else if t.vax then if t.negative p then none else some 0
  else some (withSign (t.negative p)
    (Lib.Scaled.scaled 2 (t.fraction p) (1 - t.format.bias - t.format.fracBits)))

end FloatType

end FreeVMS.Rtl.Cvt
