import FreeVMS.Rtl.Bytes

/-!
# Quadword times

`lib_day.c` and `sys__combine_date_time.c`: a quadword in units of 100 ns and its number of days and
of hundredths of a second, with divisions and multiplications byte by byte.

A product of two `int` that is not an `int` has no value in C; `sys$__combine_date_time` then has
none here.
-/

namespace FreeVMS.Rtl

open Lib.Digits

/-- `SS$_IVTIME` -/
def ivTime : Nat := 0x0184

/-- 10 millisecond units in a quadword. -/
def timeBase : Nat := 100000

/-- Hundredths of a second in a day. -/
def timeSize : Nat := 8640000

/-- `struct TIME` -/
abbrev Quad := BitVec 64

/-- `time[0]`, …, `time[7]` -/
def timeBytes (q : Quad) : List Byte := (List.range 8).map fun i => q.extractLsb' (8 * i) 8

def ofTimeBytes (bs : List Byte) : Quad := BitVec.ofInt 64 (bytesValue bs)

/-! ### `lib$day` -/

/-- `time = time + ((~*srcptr++) & 0xFF); *dstptr++ = time; time = (time >> 8);` -/
def complementByte (time : BitVec 32) (b : Byte) : Byte × BitVec 32 :=
  let time := time + (~~~ b.setWidth 32 &&& 0xFF)
  (time.setWidth 8, time >>> 8)

/-- The two's complement of delta times. -/
def complementBytes (bs : List Byte) : List Byte := (ripple complementByte 1 bs).1

/-- `time = (time << 8) | *srcptr--; *dstptr-- = time / TIMEBASE; time %= TIMEBASE;` -/
def divideByte (b : Byte) (time : BitVec 32) : BitVec 32 × Byte :=
  let time := time <<< 8 ||| b.setWidth 32
  (time % BitVec.ofNat 32 timeBase, (time / BitVec.ofNat 32 timeBase).setWidth 8)

/-- The loop that throws away the unrequired time precision. -/
def divideBytes (bs : List Byte) : List Byte := (List.mapAccumr divideByte bs 0).2

/-- `time = (time << 8) | *srcptr--; date = (date << 8) | (time / TIMESIZE); time %= TIMESIZE;` -/
def separateByte (b : Byte) : BitVec 32 × BitVec 32 → BitVec 32 × BitVec 32
  | (date, time) =>
    let time := time <<< 8 ||| b.setWidth 32
    (date <<< 8 ||| time / BitVec.ofNat 32 timeSize, time % BitVec.ofNat 32 timeSize)

/-- The loop that separates the date and the time. -/
def separateBytes (bs : List Byte) : BitVec 32 × BitVec 32 := bs.foldr separateByte (0, 0)

/-- `lib$day` from the quadword on: `*days`, as the 32 bits stored, and `*day_time`. -/
def crackTime (delta : Bool) (bs : List Byte) : Int × Int :=
  let bs := if delta then complementBytes bs else bs
  let (date, time) := separateBytes (divideBytes bs)
  if delta then (-date.toInt, -time.toInt) else (date.toInt, time.toInt)

/-- `lib$day`: the status, and the results where there are any.  `gettim` is what `sys$gettim` returns
    and stores, which is asked for when there is no `timadr`. -/
def libDay (gettim : Nat × Quad) : Option Quad → Nat × Option (Int × Int)
  | none =>
      if gettim.1 &&& 1 = 0 then (gettim.1, none)
      else (normal, some (crackTime false (timeBytes gettim.2)))
  | some timadr => (normal, some (crackTime timadr.msb (timeBytes timadr)))

/-! ### `sys$__combine_date_time` -/

/-- `*ptr++ = time; time = (time >> 8);`, `count` times. -/
def spreadBytes (time : BitVec 64) : Nat → List Byte
  | 0 => []
  | count + 1 => time.setWidth 8 :: spreadBytes (time >>> 8) count

/-- A value of the type `int`. -/
def IsInt (x : Int) : Prop := -2 ^ 31 ≤ x ∧ x < 2 ^ 31

instance (x : Int) : Decidable (IsInt x) := inferInstanceAs (Decidable (_ ∧ _))

/-- `time += *ptr * factor; *ptr++ = time; time = (time >> 8);` for all bytes. -/
def scaleBytes (factor : Nat) (time : BitVec 64) : List Byte → Option (List Byte)
  | [] => some []
  | b :: bs =>
      if IsInt (b.toNat * factor) then
        let time := time + BitVec.ofNat 64 (b.toNat * factor)
        (scaleBytes factor (time >>> 8) bs).map fun bs => time.setWidth 8 :: bs
      else none

/-- `sys$__combine_date_time` with `*timadr`: the status and the new `*timadr`. -/
def sysCombineDateTime (days : Int) (timadr : Quad) (dayTime : Int) : Option (Nat × Quad) :=
  if timeSize ≤ dayTime then some (ivTime, timadr)
  else
    let ptr := spreadBytes (BitVec.ofInt 64 days) 8
    (scaleBytes timeSize (BitVec.ofInt 64 dayTime) ptr).bind fun ptr =>
      (scaleBytes timeBase 0 ptr).map fun ptr => (normal, ofTimeBytes ptr)

/-! ### The bytes of a quadword -/

/-- A byte behind a number of 32 bits. -/
theorem shift_byte (time : BitVec 32) (b : Byte) :
    (time <<< 8 ||| b.setWidth 32).toNat = (256 * time.toNat + b.toNat) % 2 ^ 32 := by
  have hb := b.isLt
  have hadd : time <<< 8 ||| b.setWidth 32 = time <<< 8 + b.setWidth 32 := by
    rw [BitVec.add_eq_or_of_and_eq_zero]
    ext i hi
    by_cases hlow : i < 8 <;> simp [hlow]
    intro _
    exact BitVec.getLsbD_of_ge b i (by omega)
  rw [hadd]
  simp only [BitVec.toNat_add, BitVec.toNat_shiftLeft, BitVec.toNat_setWidth,
    Nat.shiftLeft_eq]
  omega

theorem shift_small (date x : BitVec 32) (hx : x.toNat < 256) :
    (date <<< 8 ||| x).toNat = (256 * date.toNat + x.toNat) % 2 ^ 32 := by
  have hbyte : x = (x.setWidth 8).setWidth 32 := by
    apply BitVec.eq_of_toNat_eq
    simp only [BitVec.toNat_setWidth]
    omega
  rw [hbyte, shift_byte, ← hbyte]
  simp only [BitVec.toNat_setWidth]
  omega

theorem timeBytes_value (q : Quad) : bytesValue (timeBytes q) = q.toNat := by
  have hq := q.isLt
  simp only [timeBytes, bytesValue, List.range, List.range.loop, List.map_cons, List.map_nil,
    valueOf_cons, valueOf_nil, byteValue, BitVec.extractLsb'_toNat, Nat.shiftRight_eq_div_pow]
  omega

theorem ofTimeBytes_value (bs : List Byte) : (ofTimeBytes bs).toNat = bytesValue bs % 2 ^ 64 := by
  rw [ofTimeBytes, BitVec.toNat_ofInt]
  have hmod := Int.emod_nonneg (bytesValue bs) (b := 2 ^ 64) (by decide)
  push_cast
  omega

theorem complementByte_value {time : BitVec 32} (htime : time.toNat ≤ 1) (b : Byte) :
    (complementByte time b).2.toNat ≤ 1 ∧
      byteValue (complementByte time b).1 + 256 * ((complementByte time b).2.toNat : Int) =
        255 - byteValue b + time.toNat := by
  have hb := b.isLt
  have hnot : (~~~ b.setWidth 32 &&& (0xFF : BitVec 32)).toNat = 255 - b.toNat := by
    revert b
    decide +kernel
  have hsum : (time + (~~~ b.setWidth 32 &&& (0xFF : BitVec 32))).toNat = time.toNat + (255 - b.toNat) := by
    rw [BitVec.toNat_add, hnot]
    omega
  simp only [complementByte, byteValue, BitVec.toNat_setWidth, BitVec.toNat_ushiftRight, hsum,
    Nat.shiftRight_eq_div_pow]
  omega

theorem length_complementBytes (bs : List Byte) : (complementBytes bs).length = bs.length :=
  length_ripple _ _ _

theorem complementBytes_value (bs : List Byte) :
    bytesValue (complementBytes bs) = -bytesValue bs % 256 ^ bs.length := by
  have hvalue := ripple_value (fun time : BitVec 32 => time.toNat ≤ 1)
    (fun time => (time.toNat : Int)) (fun _ b h => (complementByte_value h b).1)
    (fun _ b h => (complementByte_value h b).2) 1 (by decide) bs
  have htop : valueOf 256 (fun _ => 255) bs = 256 ^ bs.length - 1 := valueOf_top 256 bs
  have hlt := bytesValue_lt (complementBytes bs)
  rw [length_complementBytes] at hlt
  rw [valueOf_sub, htop] at hvalue
  apply eq_emod_of_carry (k := ((ripple complementByte 1 bs).2.toNat : Int) - 1)
    (bytesValue_nonneg _) hlt
  rw [show (1 : BitVec 32).toNat = 1 from rfl] at hvalue
  simp only [bytesValue, complementBytes]
  push_cast at hvalue
  linear_combination hvalue

theorem divideByte_value (b : Byte) {time : BitVec 32} (htime : time.toNat < timeBase) :
    (divideByte b time).1.toNat < timeBase ∧
      (timeBase : Int) * byteValue (divideByte b time).2 + ((divideByte b time).1.toNat : Int) =
        256 * time.toNat + byteValue b := by
  have hb := b.isLt
  have hbase : (BitVec.ofNat 32 timeBase).toNat = 100000 := rfl
  simp only [timeBase] at htime ⊢
  have hshift : (time <<< 8 ||| b.setWidth 32).toNat = 256 * time.toNat + b.toNat := by
    rw [shift_byte]
    omega
  simp only [divideByte, byteValue, BitVec.toNat_setWidth, BitVec.toNat_udiv, BitVec.toNat_umod,
    hshift, hbase]
  omega


theorem divideBytes_value (bs : List Byte) :
    bytesValue (divideBytes bs) = bytesValue bs / timeBase := by
  have hvalue := mapAccumr_value (fun time : BitVec 32 => time.toNat < timeBase)
    (fun time => (time.toNat : Int)) (fun b _ h => (divideByte_value b h).1)
    (fun b _ h => (divideByte_value b h).2) 0 (by decide) bs
  obtain ⟨hrest, hvalue⟩ := hvalue
  have hzero : ((0 : BitVec 32).toNat : Int) = 0 := rfl
  rw [hzero, mul_zero, zero_add] at hvalue
  rw [bytesValue, divideBytes, bytesValue, ← hvalue, timeBase] at *
  omega

/-- The date is the quotient, in its 32 bits, and the time the remainder. -/
theorem separateBytes_value (bs : List Byte) :
    ((separateBytes bs).1.toNat : Int) = bytesValue bs / timeSize % 2 ^ 32 ∧
      ((separateBytes bs).2.toNat : Int) = bytesValue bs % timeSize := by
  induction bs with
  | nil => exact ⟨rfl, rfl⟩
  | cons b bs ih =>
    obtain ⟨hdate, htime⟩ := ih
    have hb := b.isLt
    have h0 := bytesValue_nonneg bs
    have hcons : bytesValue (b :: bs) = byteValue b + 256 * bytesValue bs := rfl
    have hsize : (BitVec.ofNat 32 timeSize).toNat = 8640000 := rfl
    have hround : separateBytes (b :: bs) = separateByte b (separateBytes bs) := rfl
    rw [hround, hcons]
    generalize separateBytes bs = dateTime at hdate htime ⊢
    obtain ⟨date, time⟩ := dateTime
    simp only [timeSize] at hdate htime ⊢
    have hshift : (time <<< 8 ||| b.setWidth 32).toNat = 256 * time.toNat + b.toNat := by
      rw [shift_byte]
      omega
    have hquot : ((time <<< 8 ||| b.setWidth 32) / BitVec.ofNat 32 timeSize).toNat =
        (256 * time.toNat + b.toNat) / 8640000 := by
      rw [BitVec.toNat_udiv, hshift, hsize]
    simp only [separateByte, byteValue]
    rw [shift_small _ _ (by rw [hquot]; omega), hquot, BitVec.toNat_umod, hshift, hsize]
    omega

/-! ### What `lib$day` finds -/

/-- The days and the hundredths in a magnitude. -/
theorem separate_divide (bs : List Byte) (hv : bytesValue bs ≤ 2 ^ 63) :
    (separateBytes (divideBytes bs)).1.toInt = bytesValue bs / timeBase / timeSize ∧
      (separateBytes (divideBytes bs)).2.toInt = bytesValue bs / timeBase % timeSize := by
  obtain ⟨hdate, htime⟩ := separateBytes_value (divideBytes bs)
  have h0 := bytesValue_nonneg bs
  rw [divideBytes_value] at hdate htime
  simp only [timeBase, timeSize] at hdate htime ⊢
  rw [BitVec.toInt_eq_toNat_of_lt (by omega), BitVec.toInt_eq_toNat_of_lt (by omega)]
  omega

theorem crack_nonneg {v : Int} (hv : 0 ≤ v) :
    (v.tdiv timeBase).tdiv timeSize = v / timeBase / timeSize ∧
      (v.tdiv timeBase).tmod timeSize = v / timeBase % timeSize := by
  have hbase : 0 ≤ v / timeBase := Int.ediv_nonneg hv (Int.natCast_nonneg _)
  rw [Int.tdiv_eq_ediv_of_nonneg hv]
  exact ⟨Int.tdiv_eq_ediv_of_nonneg hbase, Int.tmod_eq_emod_of_nonneg hbase⟩

/-- **`lib$day` divides.**  The days and the hundredths of a quadword, each towards zero: so both
    have the sign of the quadword. -/
theorem libDay_some (gettim : Nat × Quad) (q : Quad) :
    libDay gettim (some q) = (normal, some ((q.toInt.tdiv timeBase).tdiv timeSize,
      (q.toInt.tdiv timeBase).tmod timeSize)) := by
  have hvalue := timeBytes_value q
  have hq := q.isLt
  rw [libDay, crackTime]
  cases hdelta : q.msb with
  | false =>
    have hint : q.toInt = q.toNat := BitVec.toInt_eq_toNat_of_msb hdelta
    have hlt : q.toNat < 2 ^ 63 := by
      rw [BitVec.msb_eq_false_iff_two_mul_lt] at hdelta
      omega
    obtain ⟨hdate, htime⟩ := separate_divide (timeBytes q) (by omega)
    obtain ⟨hdays, hhundredths⟩ := crack_nonneg (v := q.toInt) (by omega)
    rw [hdays, hhundredths, hint, ← hvalue, ← hdate, ← htime]
    rfl
  | true =>
    have hge : 2 ^ 63 ≤ q.toNat := by
      rw [BitVec.msb_eq_true_iff_two_mul_ge] at hdelta
      omega
    have hint : q.toInt = (q.toNat : Int) - 2 ^ 64 := by
      rw [BitVec.toInt_eq_msb_cond, hdelta]
      rfl
    have hcomplement : bytesValue (complementBytes (timeBytes q)) = -q.toInt := by
      rw [complementBytes_value, hvalue, hint, show (timeBytes q).length = 8 from rfl]
      omega
    obtain ⟨hdate, htime⟩ := separate_divide (complementBytes (timeBytes q)) (by omega)
    have hneg : q.toInt = -bytesValue (complementBytes (timeBytes q)) := by omega
    obtain ⟨hdays, hhundredths⟩ := crack_nonneg (bytesValue_nonneg (complementBytes (timeBytes q)))
    rw [hneg, Int.neg_tdiv, Int.neg_tdiv, Int.neg_tmod, hdays, hhundredths, ← hdate, ← htime]
    rfl

/-! ### What `sys$__combine_date_time` puts together -/

theorem spreadBytes_value (time : BitVec 64) (n : Nat) :
    bytesValue (spreadBytes time n) = ((time.toNat % 256 ^ n : Nat) : Int) := by
  induction n generalizing time with
  | zero => simp [spreadBytes, bytesValue, Nat.mod_one]
  | succ n ih =>
    have hcons : bytesValue (spreadBytes time (n + 1)) =
        byteValue (time.setWidth 8) + 256 * bytesValue (spreadBytes (time >>> 8) n) := rfl
    rw [hcons, ih, pow_succ', Nat.mod_mul, byteValue, BitVec.toNat_setWidth,
      BitVec.toNat_ushiftRight, Nat.shiftRight_eq_div_pow]
    push_cast
    rfl

/-- One round of `scaleBytes`. -/
def scaleByte (factor : Nat) (time : BitVec 64) (b : Byte) : Byte × BitVec 64 :=
  let time := time + BitVec.ofNat 64 (b.toNat * factor)
  (time.setWidth 8, time >>> 8)

theorem scaleBytes_some {factor : Nat} {bs : List Byte}
    (h : ∀ b ∈ bs, IsInt (b.toNat * factor)) (time : BitVec 64) :
    scaleBytes factor time bs = some (ripple (scaleByte factor) time bs).1 := by
  induction bs generalizing time with
  | nil => rfl
  | cons b bs ih =>
    have hbs := ih (fun b' hb' => h b' (List.mem_cons_of_mem b hb'))
      (scaleByte factor time b).2
    rw [scaleBytes, if_pos (h b List.mem_cons_self)]
    exact congrArg (Option.map _) hbs

theorem scaleBytes_none {factor : Nat} {bs : List Byte}
    (h : ¬ ∀ b ∈ bs, IsInt (b.toNat * factor)) (time : BitVec 64) :
    scaleBytes factor time bs = none := by
  induction bs generalizing time with
  | nil => simp at h
  | cons b bs ih =>
    rw [scaleBytes]
    split
    · rename_i hb
      have hbs := ih (fun hbs => h (List.forall_mem_cons.mpr ⟨hb, hbs⟩))
      simp only [hbs, Option.map_none]
    · rfl

/-- With a factor of 24 bits and a carry of 40 the sum stays in an `unsigned long`. -/
theorem scaleByte_value {factor : Nat} (hfactor : factor ≤ 2 ^ 24) {time : BitVec 64}
    (htime : time.toNat < 2 ^ 40) (b : Byte) :
    time.toNat + b.toNat * factor < 2 ^ 64 ∧ (scaleByte factor time b).2.toNat < 2 ^ 40 ∧
      byteValue (scaleByte factor time b).1 + 256 * ((scaleByte factor time b).2.toNat : Int) =
        byteValue b * factor + time.toNat := by
  have hproduct : b.toNat * factor ≤ 255 * 2 ^ 24 :=
    Nat.mul_le_mul (by have hb := b.isLt; omega) hfactor
  have hsum : (time + BitVec.ofNat 64 (b.toNat * factor)).toNat =
      time.toNat + b.toNat * factor := by
    rw [BitVec.toNat_add, BitVec.toNat_ofNat]
    omega
  simp only [scaleByte, byteValue, BitVec.toNat_setWidth, BitVec.toNat_ushiftRight, hsum,
    Nat.shiftRight_eq_div_pow]
  push_cast
  omega

theorem length_spreadBytes (time : BitVec 64) (n : Nat) : (spreadBytes time n).length = n := by
  induction n generalizing time with
  | zero => rfl
  | succ n ih => simp [spreadBytes, ih]

theorem scaleBytes_value {factor : Nat} (hfactor : factor ≤ 2 ^ 24) {bs : List Byte}
    (hint : ∀ b ∈ bs, IsInt (b.toNat * factor)) (time : BitVec 64) (htime : time.toNat < 2 ^ 40) :
    ∃ out, scaleBytes factor time bs = some out ∧ out.length = bs.length ∧
      bytesValue out = (bytesValue bs * factor + time.toNat) % 256 ^ bs.length := by
  refine ⟨_, scaleBytes_some hint time, length_ripple _ _ _, ?_⟩
  have hvalue := ripple_value (fun time : BitVec 64 => time.toNat < 2 ^ 40)
    (fun time => (time.toNat : Int)) (fun _ b h => (scaleByte_value hfactor h b).2.1)
    (fun _ b h => (scaleByte_value hfactor h b).2.2) time htime bs
  have hlt := bytesValue_lt (ripple (scaleByte factor) time bs).1
  rw [length_ripple] at hlt
  rw [valueOf_mul] at hvalue
  exact eq_emod_of_carry (bytesValue_nonneg _) hlt hvalue

/-- No sum of `scaleBytes` leaves the type `unsigned long`. -/
def NoWrap (factor : Nat) (time : BitVec 64) : List Byte → Prop
  | [] => True
  | b :: bs =>
      time.toNat + b.toNat * factor < 2 ^ 64 ∧ NoWrap factor (scaleByte factor time b).2 bs

theorem noWrap {factor : Nat} (hfactor : factor ≤ 2 ^ 24) {time : BitVec 64}
    (htime : time.toNat < 2 ^ 40) (bs : List Byte) : NoWrap factor time bs := by
  induction bs generalizing time with
  | nil => exact trivial
  | cons b bs ih =>
    obtain ⟨hsum, hnext, _⟩ := scaleByte_value hfactor htime b
    exact ⟨hsum, ih hnext⟩

/-- A number of days whose two low bytes can be multiplied by `TIMESIZE`. -/
def Packable (days : Int) : Prop := days % 256 < 249 ∧ days / 256 % 256 < 249

instance (days : Int) : Decidable (Packable days) := inferInstanceAs (Decidable (_ ∧ _))

/-- A bound on the days of a quadword. -/
theorem days_lt {days dayTime : Int} (htime : 0 ≤ dayTime)
    (hrange : (days * timeSize + dayTime) * timeBase < 2 ^ 63) : days < 10675200 := by
  simp only [timeSize, timeBase] at hrange
  omega

theorem packable_iff {days : Int} (h0 : 0 ≤ days) (hlt : days < 10675200) :
    (∀ b ∈ spreadBytes (BitVec.ofInt 64 days) 8, IsInt (b.toNat * timeSize)) ↔ Packable days := by
  have hdays : (BitVec.ofInt 64 days).toNat = days.toNat := by
    rw [BitVec.toNat_ofInt]
    omega
  simp only [spreadBytes, List.forall_mem_cons, List.not_mem_nil, false_implies, implies_true,
    and_true, IsInt, BitVec.toNat_setWidth, BitVec.toNat_ushiftRight, hdays,
    Nat.shiftRight_eq_div_pow, timeSize, Packable]
  omega

theorem byte_timeBase (b : Byte) : IsInt (b.toNat * timeBase) := by
  have hb := b.isLt
  simp only [IsInt, timeBase]
  omega

/-- What `sys$__combine_date_time` stores for a number of days that it can multiply. -/
theorem sysCombineDateTime_value {days dayTime : Int} (h0 : 0 ≤ days) (htime : 0 ≤ dayTime)
    (hlt : dayTime < timeSize) (hrange : (days * timeSize + dayTime) * timeBase < 2 ^ 63)
    (hpack : Packable days) (timadr : Quad) :
    sysCombineDateTime days timadr dayTime =
      some (normal, BitVec.ofInt 64 ((days * timeSize + dayTime) * timeBase)) := by
  have hdays := days_lt htime hrange
  have hlen := length_spreadBytes (BitVec.ofInt 64 days) 8
  have hspread : bytesValue (spreadBytes (BitVec.ofInt 64 days) 8) = days := by
    rw [spreadBytes_value, BitVec.toNat_ofInt]
    omega
  simp only [timeSize, timeBase] at hlt hrange
  have hnat : ((BitVec.ofInt 64 dayTime).toNat : Int) = dayTime := by
    rw [BitVec.toNat_ofInt]
    omega
  obtain ⟨product, hproduct, hlen', hvalue⟩ := scaleBytes_value (by decide)
    ((packable_iff h0 hdays).mpr hpack) (BitVec.ofInt 64 dayTime) (by omega)
  have hproductValue : bytesValue product = days * timeSize + dayTime := by
    rw [hvalue, hspread, hnat, hlen, timeSize]
    omega
  obtain ⟨quad, hquad, _, hvalue'⟩ := scaleBytes_value (by decide)
    (fun b (_ : b ∈ product) => byte_timeBase b) 0 (by decide)
  have hquadValue : bytesValue quad = (days * timeSize + dayTime) * timeBase := by
    rw [hvalue', hproductValue, hlen', hlen, show ((0 : BitVec 64).toNat : Int) = 0 from rfl]
    simp only [timeSize, timeBase]
    omega
  rw [sysCombineDateTime, if_neg (by simp only [timeSize]; omega)]
  simp only [hproduct, hquad, Option.bind_some, Option.map_some, ofTimeBytes, hquadValue]

theorem sysCombineDateTime_none {days dayTime : Int} (h0 : 0 ≤ days) (hdays : days < 10675200)
    (hlt : dayTime < timeSize) (hpack : ¬ Packable days) (timadr : Quad) :
    sysCombineDateTime days timadr dayTime = none := by
  rw [sysCombineDateTime, if_neg (by omega)]
  simp only [scaleBytes_none (mt (packable_iff h0 hdays).mp hpack), Option.bind_none]

/-! ### What is promised of the pair -/

/-- No sum of `sys$__combine_date_time` leaves the type `unsigned long`. -/
def CombineNoWrap (days dayTime : Int) : Prop :=
  NoWrap timeSize (BitVec.ofInt 64 dayTime) (spreadBytes (BitVec.ofInt 64 days) 8) ∧
    ∀ ptr, scaleBytes timeSize (BitVec.ofInt 64 dayTime)
      (spreadBytes (BitVec.ofInt 64 days) 8) = some ptr → NoWrap timeBase 0 ptr

/-- The quadword of days and hundredths is stored, with no value out of its type, and `lib$day`
    gives them back. -/
structure PackExact (days dayTime : Int) : Prop where
  stored : ∀ timadr, sysCombineDateTime days timadr dayTime =
    some (normal, BitVec.ofInt 64 ((days * timeSize + dayTime) * timeBase))
  noWrap : CombineNoWrap days dayTime
  cracked : ∀ gettim,
    libDay gettim (some (BitVec.ofInt 64 ((days * timeSize + dayTime) * timeBase))) =
      (normal, some (days, dayTime))

/-- What `lib$day` finds in a quadword has its sign, and is put together to its magnitude without
    the part below 10 milliseconds. -/
def CrackExact (q : Quad) : Prop :=
  ∀ gettim, ∃ days dayTime, libDay gettim (some q) = (normal, some (days, dayTime)) ∧
    (0 ≤ q.toInt → 0 ≤ days ∧ 0 ≤ dayTime) ∧ (q.toInt < 0 → days ≤ 0 ∧ dayTime ≤ 0) ∧
    ∀ timadr, sysCombineDateTime |days| timadr |dayTime| =
      some (normal, BitVec.ofInt 64 (|q.toInt| - |q.toInt| % timeBase))

theorem toInt_packed {v : Int} (h0 : 0 ≤ v) (hv : v < 2 ^ 63) :
    (BitVec.ofInt 64 v).toInt = v ∧ (BitVec.ofInt 64 (-v)).toInt = -v := by
  constructor
  · rw [BitVec.toInt_ofInt_eq_self (by decide)] <;> omega
  · rw [BitVec.toInt_ofInt_eq_self (by decide)] <;> omega

theorem div_packed (days : Int) {dayTime : Int} (htime : 0 ≤ dayTime) (hlt : dayTime < timeSize) :
    (days * timeSize + dayTime) * timeBase / timeBase / timeSize = days ∧
      (days * timeSize + dayTime) * timeBase / timeBase % timeSize = dayTime := by
  simp only [timeSize, timeBase] at *
  omega

/-- `lib$day` finds the days and hundredths of an absolute time that was put together. -/
theorem libDay_packed (gettim : Nat × Quad) {days dayTime : Int} (h0 : 0 ≤ days)
    (htime : 0 ≤ dayTime) (hlt : dayTime < timeSize)
    (hrange : (days * timeSize + dayTime) * timeBase < 2 ^ 63) :
    libDay gettim (some (BitVec.ofInt 64 ((days * timeSize + dayTime) * timeBase))) =
      (normal, some (days, dayTime)) := by
  have hpos : 0 ≤ (days * timeSize + dayTime) * timeBase := by positivity
  obtain ⟨hd, hh⟩ := crack_nonneg hpos
  obtain ⟨hdays, htimes⟩ := div_packed days htime hlt
  rw [libDay_some, (toInt_packed hpos hrange).1, hd, hh, hdays, htimes]

/-- And of its delta time. -/
theorem libDay_packed_neg (gettim : Nat × Quad) {days dayTime : Int} (h0 : 0 ≤ days)
    (htime : 0 ≤ dayTime) (hlt : dayTime < timeSize)
    (hrange : (days * timeSize + dayTime) * timeBase < 2 ^ 63) :
    libDay gettim (some (BitVec.ofInt 64 (-((days * timeSize + dayTime) * timeBase)))) =
      (normal, some (-days, -dayTime)) := by
  have hpos : 0 ≤ (days * timeSize + dayTime) * timeBase := by positivity
  obtain ⟨hd, hh⟩ := crack_nonneg hpos
  obtain ⟨hdays, htimes⟩ := div_packed days htime hlt
  rw [libDay_some, (toInt_packed hpos hrange).2, Int.neg_tdiv, Int.neg_tdiv, Int.neg_tmod, hd, hh,
    hdays, htimes]

theorem packExact_iff {days dayTime : Int} (h0 : 0 ≤ days) (htime : 0 ≤ dayTime)
    (hlt : dayTime < timeSize) (hrange : (days * timeSize + dayTime) * timeBase < 2 ^ 63) :
    PackExact days dayTime ↔ Packable days := by
  have hdays := days_lt htime hrange
  constructor
  · intro h
    by_contra hpack
    have hstored := h.stored 0
    rw [sysCombineDateTime_none h0 hdays hlt hpack] at hstored
    cases hstored
  · intro hpack
    refine ⟨sysCombineDateTime_value h0 htime hlt hrange hpack, ⟨?_, ?_⟩, ?_⟩
    · refine noWrap (by decide) ?_ _
      simp only [timeSize] at hlt
      rw [BitVec.toNat_ofInt]
      omega
    · exact fun ptr _ => noWrap (by decide) (by decide) ptr
    · exact fun gettim => libDay_packed gettim h0 htime hlt hrange

/-- The magnitudes that `lib$day` finds. -/
theorem crack_abs (v : Int) :
    |(v.tdiv timeBase).tdiv timeSize| = |v| / timeBase / timeSize ∧
      |(v.tdiv timeBase).tmod timeSize| = |v| / timeBase % timeSize := by
  have hsize : (0 : Int) < timeSize := by decide
  have hbase : (0 : Int) < timeBase := by decide
  have hnonneg : ∀ w : Int, 0 ≤ w → 0 ≤ w / timeBase / timeSize ∧ 0 ≤ w / timeBase % timeSize :=
    fun w hw => ⟨Int.ediv_nonneg (Int.ediv_nonneg hw hbase.le) hsize.le,
      Int.emod_nonneg _ hsize.ne'⟩
  cases le_or_gt 0 v with
  | inl hv =>
    obtain ⟨hd, hh⟩ := crack_nonneg hv
    obtain ⟨hd0, hh0⟩ := hnonneg v hv
    rw [hd, hh, abs_of_nonneg hd0, abs_of_nonneg hh0, abs_of_nonneg hv]
    exact ⟨rfl, rfl⟩
  | inr hv =>
    obtain ⟨hd, hh⟩ := crack_nonneg (v := -v) (by omega)
    obtain ⟨hd0, hh0⟩ := hnonneg (-v) (by omega)
    rw [Int.neg_tdiv, Int.neg_tdiv, neg_eq_iff_eq_neg] at hd
    rw [Int.neg_tdiv, Int.neg_tmod, neg_eq_iff_eq_neg] at hh
    rw [hd, hh, abs_neg, abs_neg, abs_of_nonneg hd0, abs_of_nonneg hh0, abs_of_neg hv]
    exact ⟨rfl, rfl⟩

theorem crackExact_iff (q : Quad) :
    CrackExact q ↔ Packable (|q.toInt| / (timeBase * timeSize)) := by
  have hle : |q.toInt| ≤ 2 ^ 63 := by
    have hlo := BitVec.le_toInt q
    have hhi := BitVec.toInt_lt (x := q)
    rw [abs_le]
    omega
  have h0 : 0 ≤ |q.toInt| := abs_nonneg _
  obtain ⟨hd, hh⟩ := crack_abs q.toInt
  have hdiv : |q.toInt| / (timeBase * timeSize) = |q.toInt| / timeBase / timeSize :=
    (Int.ediv_ediv_of_nonneg (by decide)).symm
  rw [hdiv]
  have hdays : 0 ≤ |q.toInt| / timeBase / timeSize ∧ |q.toInt| / timeBase / timeSize < 10675200 ∧
      0 ≤ |q.toInt| / timeBase % timeSize ∧ |q.toInt| / timeBase % timeSize < timeSize ∧
      (|q.toInt| / timeBase / timeSize * timeSize + |q.toInt| / timeBase % timeSize) * timeBase =
        |q.toInt| - |q.toInt| % timeBase ∧
      |q.toInt| - |q.toInt| % timeBase < 2 ^ 63 := by
    simp only [timeBase, timeSize]
    omega
  obtain ⟨hd0, hdlt, hh0, hhlt, hmagnitude, hrange⟩ := hdays
  constructor
  · intro h
    by_contra hpack
    obtain ⟨days, dayTime, hcrack, _, _, hstored⟩ := h (0, 0)
    rw [libDay_some, Prod.mk.injEq, Option.some.injEq, Prod.mk.injEq] at hcrack
    obtain ⟨-, rfl, rfl⟩ := hcrack
    have hnone := hstored 0
    rw [hd, hh, sysCombineDateTime_none hd0 hdlt hhlt hpack] at hnone
    cases hnone
  · intro hpack gettim
    refine ⟨_, _, libDay_some gettim q, ?_, ?_, ?_⟩
    · intro hq
      obtain ⟨hd', hh'⟩ := crack_nonneg hq
      rw [abs_of_nonneg hq] at hd0 hh0
      rw [hd', hh']
      exact ⟨hd0, hh0⟩
    · intro hq
      obtain ⟨hd', hh'⟩ := crack_nonneg (v := -q.toInt) (by omega)
      rw [abs_of_neg hq] at hd0 hh0
      rw [Int.neg_tdiv, Int.neg_tdiv] at hd'
      rw [Int.neg_tdiv, Int.neg_tmod] at hh'
      omega
    · intro timadr
      rw [hd, hh, sysCombineDateTime_value hd0 hh0 hhlt (by rw [hmagnitude]; exact hrange) hpack,
        hmagnitude]

/-- **Quadword time packing.**  Days and hundredths that fit in a quadword are packed and cracked
    exactly, and a quadword is cracked and packed exactly, when the two low bytes of the number of
    days are below 249; else a product leaves the type `int`. -/
theorem quadword_packing (days dayTime : Int) (q : Quad) :
    (0 ≤ days → 0 ≤ dayTime → dayTime < timeSize →
      (days * timeSize + dayTime) * timeBase < 2 ^ 63 →
        (PackExact days dayTime ↔ Packable days)) ∧
      (CrackExact q ↔ Packable (|q.toInt| / (timeBase * timeSize))) :=
  ⟨fun h0 htime hlt hrange => packExact_iff h0 htime hlt hrange, crackExact_iff q⟩

/-- A hundredth before the end of day 59000. -/
theorem day_packed : PackExact 59000 8639999 :=
  ((quadword_packing 59000 8639999 0).1 (by decide) (by decide) (by decide) (by decide)).mpr
    (by decide)

/-- Day 249, the 24th of July 1859. -/
theorem day_not_packed : ¬ ((∀ days dayTime : Int, 0 ≤ days → 0 ≤ dayTime → dayTime < timeSize →
    (days * timeSize + dayTime) * timeBase < 2 ^ 63 → PackExact days dayTime) ∧
      ∀ q : Quad, CrackExact q) := by
  intro h
  have hstored := (h.1 249 0 (by decide) (by decide) (by decide) (by decide)).stored 0
  have hnone : sysCombineDateTime 249 0 0 = none := by decide +kernel
  rw [hnone] at hstored
  cases hstored

end FreeVMS.Rtl
