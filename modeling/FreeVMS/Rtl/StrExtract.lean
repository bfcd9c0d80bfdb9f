import FreeVMS.Rtl.StrDesc

/-!
# Parts of strings and concatenation

The routines that take a part of a source string, and those that append to a dynamic string.
Positions are `long`, offsets and lengths `int`, and what is handed on is an `unsigned short`.
-/

namespace FreeVMS.Rtl.Str

/-- What an `int` keeps of a `long`. -/
def asInt (x : Int) : Int := x.bmod (2 ^ 32)

/-- What a `long` keeps of a sum. -/
def asLong (x : Int) : Int := x.bmod (2 ^ 64)

/-- `real_final_length` -/
def realLength (finalLength : Int) : BitVec 16 :=
  if finalLength < 0 then 0 else BitVec.ofInt 16 finalLength

/-- The status of the copy, and where that is fine the one found before it. -/
def Outcome.orElse (result : Outcome) (secondResult : Nat) : Outcome :=
  { result with status := if result.status = strNormal then secondResult else result.status }

/-- `str$left` -/
def strLeft (place : Store → Nat → Nat) (d source : Descriptor) (endPosition : BitVec 64)
    (σ : Store) : Except Fault Outcome := do
  let (s2Length, s2) ← strAnalyzeSdesc σ.memory source
  let finalLength := asInt (min (s2Length.toNat : Int) endPosition.toInt)
  strCopyR place d (realLength finalLength) s2 σ

/-- `str$right` -/
def strRight (place : Store → Nat → Nat) (d source : Descriptor) (startPosition : BitVec 64)
    (σ : Store) : Except Fault Outcome := do
  let startOffset := asInt (startPosition.toInt - 1)
  let secondResult := if startOffset ≤ 0 then strStrtoolon else strNormal
  let startOffset := if startOffset ≤ 0 then 0 else startOffset
  let (s2Length, s2) ← strAnalyzeSdesc σ.memory source
  if (s2Length.toNat : Int) < startPosition.toInt then
    let freed ← strFree1Dx d σ
    return { freed with status := strIllstrpos }
  let finalLength := (s2Length.toNat : Int) - startOffset
  let secondResult := if finalLength < 0 then strStrtoolon else secondResult
  let result ← strCopyR place d (realLength finalLength) (s2 + startOffset.toNat) σ
  let destination := { result.destination with wLength := BitVec.ofInt 16 finalLength }
  return { result.orElse secondResult with destination := destination }

/-- `str$pos_extr` -/
def strPosExtr (place : Store → Nat → Nat) (d source : Descriptor)
    (startPosition endPosition : BitVec 64) (σ : Store) : Except Fault Outcome := do
  let startOffset := asInt startPosition.toInt
  let secondResult := if startOffset ≤ 0 then strIllstrpos else strNormal
  let startOffset := if startOffset ≤ 0 then 1 else startOffset
  let (s2Length, s2) ← strAnalyzeSdesc σ.memory source
  let finalLength := (s2Length.toNat : Int) - startOffset + 1
  let wanted := asLong (endPosition.toInt - startPosition.toInt + 1)
  let finalLength := if wanted < finalLength then asInt wanted else finalLength
  let secondResult := if finalLength < 0 then strStrtoolon else secondResult
  let result ← strCopyR place d (realLength finalLength) (s2 + (startOffset - 1).toNat) σ
  return result.orElse secondResult

/-- `str$len_extr` -/
def strLenExtr (place : Store → Nat → Nat) (d source : Descriptor)
    (startPosition longwordIntegerLength : BitVec 64) (σ : Store) : Except Fault Outcome := do
  let startOffset := asInt startPosition.toInt
  let secondResult := if startOffset ≤ 0 then strStrtoolon else strNormal
  let startOffset := if startOffset ≤ 0 then 1 else startOffset
  let (s2Length, s2) ← strAnalyzeSdesc σ.memory source
  let finalLength :=
    if longwordIntegerLength.toInt < (s2Length.toNat : Int) - (startOffset - 1) then
      asInt longwordIntegerLength.toInt
    else (s2Length.toNat : Int) - (startOffset - 1)
  let secondResult := if finalLength < 0 then strStrtoolon else secondResult
  let result ← strCopyR place d (realLength finalLength) (s2 + (startOffset - 1).toNat) σ
  return result.orElse secondResult

/-- `MAXCSTR16` -/
def maxcstr16 : Nat := 65535

/-- `str$append` -/
def strAppend (place : Store → Nat → Nat) (d source : Descriptor) (σ : Store) :
    Except Fault Outcome := do
  if d.bClass ≠ .d then throw (.signal strIllstrcla)
  let (s1Length, _) ← strAnalyzeSdesc σ.memory d
  let (s2Length, s2) ← strAnalyzeSdesc σ.memory source
  let sizeCheck := s1Length.toNat + s2Length.toNat
  let (finalLength, s2Length, status) :=
    if maxcstr16 < sizeCheck then (maxcstr16, maxcstr16 - s1Length.toNat, strTru)
    else (sizeCheck, s2Length.toNat, normal)
  let resized ← strResize place d (BitVec.ofNat 16 finalLength) σ
  if resized.status = strNormal then
    let memory := memcpy resized.store.memory (resized.destination.aPointer + s1Length.toNat)
      s2 s2Length
    return ⟨status, { resized.destination with wLength := BitVec.ofNat 16 finalLength },
      { resized.store with memory := memory }⟩
  else return { resized with status := strFatinterr }

/-- The loop of `str$concat`, which ends at a status that is not success. -/
def appendAll (place : Store → Nat → Nat) : List Descriptor → Outcome → Except Fault Outcome
  | [], out => .ok out
  | item :: items, out => do
    if out.status = strNormal then
      let out ← strAppend place out.destination item out.store
      appendAll place items out
    else return out

/-- `str$concat` -/
def strConcat (place : Store → Nat → Nat) (d : Descriptor) (items : List Descriptor) (σ : Store) :
    Except Fault Outcome := do
  let freed ← strFree1Dx d σ
  appendAll place items freed

end FreeVMS.Rtl.Str
