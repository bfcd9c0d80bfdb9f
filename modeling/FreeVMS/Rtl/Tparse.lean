import FreeVMS.Rtl.Bytes

/-!
# The table driven parser

`lib$tparse` as a machine that takes one part of the loop at a time, with the activations that wait
for a subexpression on a stack. The state table and the keywords are in `rom`, which nothing
writes; the input and what the table's addresses point to are in the memory. An action routine is
any function of the argument block and the world that does not change the block.
-/

namespace FreeVMS.Rtl.Tparse

/-! ## The statuses, named as in the source -/

def ssInsfarg : BitVec 32 := 0x0114

def libSyntaxerr : BitVec 32 := 0x00158284

def libInvtype : BitVec 32 := 0x0015828C

/-! ## The type of a transition

The code, the flags (`TPA$M_CODEFLAG` is bit 8 and so on) and the special types (`TPA$_ANY` and so
on). -/

/-- `type & 0x1ff` -/
def typeCode (type : BitVec 32) : Nat := type.toNat % 512

def codeflag (type : BitVec 32) : Bool := type.getLsbD 8

def extraflag (type : BitVec 32) : Bool := type.getLsbD 9

def lastflag (type : BitVec 32) : Bool := type.getLsbD 10

def extflag (type : BitVec 32) : Bool := type.getLsbD 11

def tranflag (type : BitVec 32) : Bool := type.getLsbD 12

def maskflag (type : BitVec 32) : Bool := type.getLsbD 13

def addrflag (type : BitVec 32) : Bool := type.getLsbD 14

def actflag (type : BitVec 32) : Bool := type.getLsbD 15

def parmflag (type : BitVec 32) : Bool := type.getLsbD 16

def tpaAny : Nat := 493

def tpaAlpha : Nat := 494

def tpaDigit : Nat := 495

def tpaString : Nat := 496

def tpaSymbol : Nat := 497

def tpaBlank : Nat := 498

def tpaDecimal : Nat := 499

def tpaOctal : Nat := 500

def tpaHex : Nat := 501

def tpaLambda : Nat := 502

def tpaEos : Nat := 503

def tpaSubexpr : Nat := 504

/-! ## The argument block and what is around it -/

/-- `struct _tpadef` -/
structure Tpa where
  count : BitVec 32
  vBlanks : Bool
  vAbbrev : Bool
  vAbbrfm : Bool
  vAmbig : Bool
  mcount : Byte
  stringcnt : BitVec 32
  stringptr : Int
  tokencnt : BitVec 32
  tokenptr : Int
  char : BitVec 32
  number : BitVec 32
  param : BitVec 32
  deriving DecidableEq

/-- The memory and the two variables that all activations of `lib$tparse` share. -/
structure World where
  memory : Memory
  charCount : BitVec 32
  actionValue : BitVec 32

/-- The character at an address. -/
def charAt (m : Memory) (p : Int) : Byte := m p.toNat

def World.count (w : World) (n : Nat) : World := { w with charCount := BitVec.ofNat 32 n }

/-! ## Tokens -/

def isAlphabetic (c : Byte) : Bool := (0x41 ≤ c ∧ c ≤ 0x5A) ∨ (0x61 ≤ c ∧ c ≤ 0x7A)

def isNumeric (c : Byte) : Bool := 0x30 ≤ c ∧ c ≤ 0x39

/-- `'_'` and `'$'` -/
def isSymbol (c : Byte) : Bool := c = 0x5F ∨ c = 0x24

/-- `SPACE` and `TAB` -/
def isSpace (c : Byte) : Bool := c = 32 ∨ c = 9

/-- `upcase`: its condition holds of every character. -/
def upcase (c : Byte) : Byte := c ||| 0x20

/-- The classes of `getstring`. Each takes the characters of those before it as well. -/
inductive StringType where
  | spaces | numeric | alphanumeric | symbol
  deriving DecidableEq

def StringType.accepts : StringType → Byte → Bool
  | .spaces, c => isSpace c
  | .numeric, c => isSpace c || isNumeric c
  | .alphanumeric, c => isSpace c || isNumeric c || isAlphabetic c
  | .symbol, c => isSpace c || isNumeric c || isAlphabetic c || isSymbol c

/-- How many characters of a class there are at `p`, among at most `n`. -/
def spanCount (type : StringType) (m : Memory) (p : Int) : Nat → Nat
  | 0 => 0
  | n + 1 => if type.accepts (charAt m p) then spanCount type m (p + 1) n + 1 else 0

/-- `getstring`: the count that it leaves in `char_count`. -/
def getstring (tpa : Tpa) (m : Memory) (type : StringType) : Nat :=
  spanCount type m tpa.stringptr tpa.stringcnt.toInt.toNat

/-- `tolower` -/
def tolower (c : Byte) : Byte := if 0x41 ≤ c ∧ c ≤ 0x5A then c + 32 else c

/-- `strncasecmp(s, key, n) == 0` -/
def strncasecmpEq (m : Memory) (s : Int) (rom : Memory) (key : Nat) : Nat → Bool
  | 0 => true
  | n + 1 =>
    if tolower (charAt m s) ≠ tolower (rom key) then false
    else if charAt m s = 0 then true
    else strncasecmpEq m (s + 1) rom (key + 1) n

/-- The digits of a number in front of a text: its value and how many there are. -/
def readNumber (base value : Nat) : List Byte → Nat × Nat
  | [] => (value, 0)
  | c :: cs =>
    if isNumeric c ∧ c.toNat - 48 < base then
      let (value, n) := readNumber base (value * base + (c.toNat - 48)) cs
      (value, n + 1)
    else (value, 0)

/-- `strtol` of a text of spaces and digits: the value, cut to a `long`, and how many characters
were used. -/
def strtol (base : Nat) (s : List Byte) : Nat × Nat :=
  let digits := s.dropWhile isSpace
  let (value, n) := readNumber base 0 digits
  if n = 0 then (0, 0) else (min value (2 ^ 63 - 1), s.length - digits.length + n)

/-! ## The state table -/

/-- `*(unsigned short *) p` -/
def wordAt (rom : Memory) (p : Nat) : BitVec 16 := rom (p + 1) ++ rom p

/-- `*(int *) p` -/
def longAt (rom : Memory) (p : Nat) : BitVec 32 := rom (p + 3) ++ rom (p + 2) ++ rom (p + 1) ++ rom p

/-- The address that a displacement behind a field of `n` bytes stands for. -/
def relative (p n : Nat) (displacement : Int) : Nat := (p + n + displacement).toNat

/-- The type of the entry at `state` with its flags, and the address behind them. -/
def readHeader (rom : Memory) (state : Nat) : BitVec 32 × Nat :=
  let type := (wordAt rom state).setWidth 32
  if extraflag type then (type ||| (rom (state + 2)).signExtend 32 <<< 16, state + 3)
  else (type, state + 2)

/-- `next_state` -/
def nextState (state : Nat) (type : BitVec 32) : Nat :=
  let state := if extraflag type then state + 4 else state
  let state := if extflag type then state + 2 else state
  let state := if actflag type then state + 4 else state
  let state := if addrflag type then state + 4 else state
  let state := if maskflag type then state + 4 else state
  if tranflag type then state + 2 else state

/-! ## The tests -/

/-- What the tests of a transition find. -/
inductive Tested where
  | ifval (b : Bool)
  | subexpr
  | invtype
  /-- the address in `temp_key` is not one -/
  | badKey

/-- A test of the next character. -/
def testChar (tpa : Tpa) (w : World) (b : Bool) : Tested × Tpa × World :=
  if b then
    (.ifval true, { tpa with char := (charAt w.memory tpa.stringptr).signExtend 32 }, w.count 1)
  else (.ifval false, tpa, w)

/-- A test that `getstring` decides. -/
def testString (tpa : Tpa) (w : World) (type : StringType) : Tested × Tpa × World :=
  let n := getstring tpa w.memory type
  (.ifval (0 < n), tpa, w.count n)

/-- `$DECIMAL`, `$OCTAL` and `$HEX` -/
def testNumber (tpa : Tpa) (w : World) (base : Nat) : Tested × Tpa × World :=
  let n := getstring tpa w.memory .numeric
  if 0 < n then
    let (value, used) := strtol base (bytesAt w.memory tpa.tokenptr.toNat n)
    (.ifval (used = n), { tpa with number := BitVec.ofNat 32 value }, w.count n)
  else (.ifval false, tpa, w.count n)

/-- A keyword that begins with the `n` characters of the token. -/
def testAbbreviation (type : BitVec 32) (tpa : Tpa) (term : Byte) (n : Nat) : Tested :=
  if term = 0xFF ∨ (tpa.mcount ≠ 0 ∧ tpa.mcount.toNat ≤ n) then .ifval true
  else if tpa.vAbbrfm then .ifval true
  else if lastflag type then .ifval true
  else if tpa.vAbbrev then .badKey
  else .ifval false

def testKeyword (rom : Memory) (keyTable : Nat) (type : BitVec 32) (tpa : Tpa) (w : World) :
    Tested × Tpa × World :=
  if tpa.vAmbig then (.ifval false, tpa, w)
  else
    let n := getstring tpa w.memory .symbol
    let key := relative keyTable 0 (longAt rom (keyTable + 4 * (type.toNat % 256))).toInt
    if 0 < n ∧ strncasecmpEq w.memory tpa.tokenptr rom key n then
      (testAbbreviation type tpa (rom (key + n)) n, tpa, w.count n)
    else (.ifval false, tpa, w.count n)

/-- The tests by type. -/
def test (rom : Memory) (keyTable : Nat) (type : BitVec 32) (tpa : Tpa) (w : World) :
    Tested × Tpa × World :=
  let code := typeCode type
  let next := charAt w.memory tpa.stringptr
  if code < tpaLambda ∧ tpa.stringcnt = 0 then (.ifval false, tpa, w)
  else if code ≤ 255 then testChar tpa w (upcase (type.setWidth 8) = upcase next)
  else if code ≤ 475 then testKeyword rom keyTable type tpa w
  else if code = tpaLambda then (.ifval true, tpa, w)
  else if code = tpaEos then (.ifval (tpa.stringcnt = 0), tpa, w)
  else if code = tpaAny then testChar tpa w true
  else if code = tpaAlpha then testChar tpa w (isAlphabetic next)
  -- the source asks `is_alphabetic` here too
  else if code = tpaDigit then testChar tpa w (isAlphabetic next)
  else if code = tpaString then testString tpa w .alphanumeric
  else if code = tpaSymbol then testString tpa w .symbol
  else if code = tpaBlank then testString tpa w .spaces
  else if code = tpaDecimal then testNumber tpa w 10
  else if code = tpaOctal then testNumber tpa w 8
  else if code = tpaHex then testNumber tpa w 16
  else if code = tpaSubexpr then (.subexpr, tpa, w)
  else (.invtype, tpa, w)

/-! ## What an accepted transition stores -/

/-- The `n` bytes of a number, the lowest first. -/
def storeNumber (m : Memory) (p n v : Nat) : Memory := fun a =>
  if p ≤ a ∧ a < p + n then BitVec.ofNat 8 (v / 256 ^ (a - p)) else m a

/-- A `long` of a signed or unsigned number. -/
def longOf (v : Int) : Nat := (v % 2 ^ 64).toNat

/-- What is stored at the address of an accepted transition without a mask. -/
def storeToken (type : BitVec 32) (tpa : Tpa) (m : Memory) (address : Nat) : Memory :=
  let code := typeCode type
  if ¬ codeflag type ∨ code = tpaAny ∨ code = tpaAlpha ∨ code = tpaDigit then
    storeNumber m address 1 tpa.char.toNat
  else if code = tpaDecimal ∨ code = tpaOctal ∨ code = tpaHex then
    storeNumber m address 8 tpa.number.toNat
  else storeNumber (storeNumber m address 8 tpa.tokencnt.toNat) (address + 8) 8 (longOf tpa.tokenptr)

/-- The address and mask fields of an accepted transition: the address behind them and the
memory. -/
def storeAccepted (rom : Memory) (type : BitVec 32) (state : Nat) (tpa : Tpa) (m : Memory) :
    Nat × Memory :=
  if addrflag type then
    let address := relative state 4 (longAt rom state).toInt
    if maskflag type then
      let mask := longOf (longAt rom (state + 4)).toInt
      (state + 8, storeNumber m address 8 ((numberAt m address 8).toNat ||| mask))
    else (state + 4, storeToken type tpa m address)
  else (state, m)

/-! ## The machine -/

/-- The local variables of an activation. `mark` is not one of the source: it is where the input
stands behind the blanks. -/
structure Locals where
  curpos : Nat
  type : BitVec 32
  state : Nat
  mark : Int
  deriving DecidableEq

/-- An activation that waits for its subexpression. -/
structure Frame where
  locals : Locals
  savecount : BitVec 32
  savepointer : Int
  deriving DecidableEq

/-- Where the activation on top is. -/
inductive Pc where
  /-- at the head of `while (1)` -/
  | loop (state : Nat)
  /-- at `if (ifval) { // 1` -/
  | test (l : Locals) (ifval : Bool)
  /-- at the call of the action routine -/
  | act (l : Locals)
  /-- at `if (ifval) { // 2` -/
  | verdict (l : Locals) (ifval : Bool)
  /-- at `while ((type&TPA$M_LASTFLAG)==0)` -/
  | skip (type : BitVec 32) (state : Nat)
  | ret (sts : BitVec 32)
  | crash
  deriving DecidableEq

structure Machine where
  tpa : Tpa
  world : World
  stack : List Frame
  pc : Pc

/-- What the parser is given besides the argument block. -/
structure Parser where
  rom : Memory
  keyTable : Nat
  action : Nat → Tpa → World → BitVec 32 × World

/-- The first lines of `lib$tparse`. -/
def enter (startState : Nat) (tpa : Tpa) (w : World) (stack : List Frame) : Machine :=
  if tpa.count < 8 then ⟨tpa, w, stack, .ret ssInsfarg⟩
  else ⟨{ tpa with vAmbig := false }, { w with actionValue := 0 }, stack, .loop startState⟩

/-- The blanks in front of an entry. -/
def skipBlanks (type : BitVec 32) (tpa : Tpa) (w : World) : Tpa :=
  if ¬ tpa.vBlanks ∧ typeCode type ≠ tpaLambda then
    let n := getstring tpa w.memory .spaces
    { tpa with stringcnt := tpa.stringcnt - BitVec.ofNat 32 n, stringptr := tpa.stringptr + n }
  else tpa

/-- An entry that is not taken: on to the next one, or the end of the parse. -/
def leave (l : Locals) (tpa : Tpa) (w : World) (stack : List Frame) : Machine :=
  let state := nextState l.state l.type
  if lastflag l.type then
    let n := getstring tpa w.memory .symbol
    let tokencnt := if n = 0 ∧ tpa.stringcnt ≠ 0 then 1 else BitVec.ofNat 32 n
    let sts := if w.actionValue = 0 ∨ w.actionValue.getLsbD 0 then libSyntaxerr else w.actionValue
    ⟨{ tpa with tokencnt := tokencnt }, w.count n, stack, .ret sts⟩
  else ⟨tpa, w, stack, .loop state⟩

/-- What comes of the tests of the entry at `l`. -/
def found (P : Parser) (l : Locals) (stack : List Frame) : Tested × Tpa × World → Machine
  | (.ifval b, tpa, w) => ⟨tpa, w, stack, .test l b⟩
  | (.subexpr, tpa, w) =>
    enter (relative l.state 2 (wordAt P.rom l.state).toInt) tpa w
      (⟨l, tpa.stringcnt, tpa.stringptr⟩ :: stack)
  | (.invtype, tpa, w) => ⟨tpa, w, stack, .ret libInvtype⟩
  | (.badKey, tpa, w) => ⟨tpa, w, stack, .crash⟩

/-- The head of the entry at `state`. -/
def look (P : Parser) (state : Nat) (tpa : Tpa) (w : World) (stack : List Frame) : Machine :=
  let header := readHeader P.rom state
  let tpa := skipBlanks header.1 tpa w
  found P ⟨state, header.1, header.2, tpa.stringptr⟩ stack
    (test P.rom P.keyTable header.1 { tpa with tokenptr := tpa.stringptr } (w.count 0))

/-- The token is taken from the input. -/
def takeToken (tpa : Tpa) (w : World) : Tpa := { tpa with
  stringcnt := tpa.stringcnt - w.charCount
  stringptr := tpa.stringptr + w.charCount.toInt
  tokencnt := w.charCount }

def takeParam (P : Parser) (type : BitVec 32) (state : Nat) (tpa : Tpa) : Tpa :=
  if parmflag type then { tpa with param := longAt P.rom state } else tpa

/-- A test that succeeded. -/
def take (P : Parser) (l : Locals) (tpa : Tpa) (w : World) (stack : List Frame) : Machine :=
  let state := if extflag l.type then l.state + 2 else l.state
  let tpa := takeParam P l.type state (takeToken tpa w)
  let l := { l with state := if parmflag l.type then state + 4 else state }
  ⟨tpa, w, stack, if actflag l.type then .act l else .verdict l true⟩

/-- A transition that is accepted. -/
def accept (P : Parser) (l : Locals) (tpa : Tpa) (w : World) (stack : List Frame) : Machine :=
  let (state, memory) := storeAccepted P.rom l.type l.state tpa w.memory
  let tpa := { tpa with vAmbig := false }
  let w := { w with memory := memory }
  if tranflag l.type then
    let target := (wordAt P.rom state).toInt
    if target = -1 then ⟨tpa, w, stack, .ret 1⟩
    else if target = -2 then ⟨tpa, w, stack, .ret libSyntaxerr⟩
    else ⟨tpa, w, stack, .loop (relative state 2 target)⟩
  else ⟨tpa, w, stack, .skip l.type state⟩

/-- A transition that its action routine rejects. -/
def reject (l : Locals) (tpa : Tpa) (w : World) (stack : List Frame) : Machine :=
  leave l { tpa with
    stringcnt := tpa.stringcnt + w.charCount
    stringptr := tpa.stringptr - w.charCount.toInt } w stack

/-- The return of a subexpression. -/
def resume (sts : BitVec 32) (f : Frame) (tpa : Tpa) (w : World) (stack : List Frame) : Machine :=
  let restored := { tpa with stringcnt := f.savecount, stringptr := f.savepointer }
  if sts.getLsbD 0 then
    ⟨{ restored with tokenptr := f.savepointer },
      { w with charCount := f.savecount - tpa.stringcnt }, stack, .test f.locals true⟩
  else ⟨restored, w, stack, .test f.locals false⟩

def step (P : Parser) (m : Machine) : Option Machine :=
  match m.pc with
  | .loop state => some (look P state m.tpa m.world m.stack)
  | .test l true => some (take P l m.tpa m.world m.stack)
  | .test l false => some (leave l m.tpa m.world m.stack)
  | .act l =>
    let (value, w) := P.action (relative l.state 4 (longAt P.rom l.state).toInt) m.tpa m.world
    some ⟨m.tpa, { w with actionValue := value }, m.stack,
      .verdict { l with state := l.state + 4 } (value ≠ 0)⟩
  | .verdict l true => some (accept P l m.tpa m.world m.stack)
  | .verdict l false => some (reject l m.tpa m.world m.stack)
  | .skip type state =>
    if lastflag type then some { m with pc := .loop state }
    else
      let (type, state) := readHeader P.rom state
      some { m with pc := .skip type (nextState state type) }
  | .ret sts =>
    match m.stack with
    | [] => none
    | f :: stack => some (resume sts f m.tpa m.world stack)
  | .crash => none

/-- `lib$tparse(argument_block, state_table, key_table)` -/
def libTparse (startState : Nat) (tpa : Tpa) (w : World) : Machine := enter startState tpa w []

/-- The first machine in `n` steps that can not go on. -/
def runFor (P : Parser) : Nat → Machine → Machine
  | 0, m => m
  | n + 1, m =>
    match step P m with
    | none => m
    | some m' => runFor P n m'

end FreeVMS.Rtl.Tparse
