import FreeVMS.Lib.ByteMemory
import FreeVMS.Boot.Regions

/-!
# Loading an image

`sys$elf_loader` copies the file part of each `PT_LOAD` segment and clears the rest of it.  It clears
from `dst_start + ph->fsize + 1` on, so that the first byte behind the file part is left as the new
pages have it, and the first byte behind the segment is cleared.  That does no harm only when another
segment starts there.

On its way through the table it stores the sizes in memory that it corrects: such a size may be part
of what is copied.
-/

namespace FreeVMS.Boot

open Lib.ByteMemory

/-- Memory, the addresses that the loops below have written, and the memsections in `clist`, the last
    one first. -/
structure LoadState where
  mem : Mem
  written : List Addr
  clist : List (Addr × Addr)

def LoadState.put (s : LoadState) (a : Addr) (b : BitVec 8) : LoadState :=
  { s with mem := Function.update s.mem a b, written := a :: s.written }

/-- `sys$initmem` -/
def sysInitmem : Nat → Addr → LoadState → LoadState
  | 0, _, s => s
  | len + 1, ptr, s => sysInitmem len (ptr + 1) (s.put ptr 0)

/-- `sys$memcopy` -/
def sysMemcopy : Nat → Addr → Addr → LoadState → LoadState
  | 0, _, _, s => s
  | size + 1, ptr2, ptr1, s => sysMemcopy size (ptr2 + 1) (ptr1 + 1) (s.put ptr2 (s.mem ptr1))

/-! ### The headers -/

def word (m : Mem) (a : Addr) : Addr := BitVec.ofNat 64 (field m a 8)

/-- `eh->type` -/
def ehType (m : Mem) (eh : Addr) : Nat := field m (off eh 16) 2

def ehEntry (m : Mem) (eh : Addr) : Addr := word m (off eh 24)

def ehPhoff (m : Mem) (eh : Addr) : Addr := word m (off eh 32)

def ehPhentsize (m : Mem) (eh : Addr) : Nat := field m (off eh 54) 2

def ehPhnum (m : Mem) (eh : Addr) : Nat := field m (off eh 56) 2

/-- `ph->type` -/
def phType (m : Mem) (ph : Addr) : Nat := field m ph 4

def phOffset (m : Mem) (ph : Addr) : Addr := word m (off ph 8)

def phPaddr (m : Mem) (ph : Addr) : Addr := word m (off ph 24)

def phFsize (m : Mem) (ph : Addr) : Addr := word m (off ph 32)

def phMsize (m : Mem) (ph : Addr) : Addr := word m (off ph 40)

/-- The program header `i`. -/
def phdr (m : Mem) (start : Addr) (i : Nat) : Addr :=
  off (start + ehPhoff m start) (ehPhentsize m start * i)

/-- The pages of a new memsection hold what `fill` says. -/
def createMemsection (fill : Addr → BitVec 8) (base size : Addr) (m : Mem) : Mem :=
  fun a => if a - base < size then fill a else m a

/-- A round of the loop; `vms$min_pagesize()` is `1 << bits`. -/
def loadRound (bits : Fin 64) (fill : Addr → BitVec 8) (start : Addr) (i : Nat) (s : LoadState) :
    LoadState :=
  let ph := phdr s.mem start i
  let s :=
    if phMsize s.mem ph < phFsize s.mem ph then
      { s with mem := storeField s.mem (off ph 40) (phFsize s.mem ph).toNat 8 }
    else s
  if phType s.mem ph = 1 then
    let srcStart := start + phOffset s.mem ph
    let dstStart := phPaddr s.mem ph
    let dstEnd := dstStart + phMsize s.mem ph
    let base := BitVec.ofNat 64 (pageRoundDown dstStart.toNat (2 ^ bits.val))
    let size := BitVec.ofNat 64 (pageRoundUp dstEnd.toNat (2 ^ bits.val)) - base
    let s := { s with mem := createMemsection fill base size s.mem, clist := (base, size) :: s.clist }
    let s := sysMemcopy (phFsize s.mem ph).toNat dstStart srcStart s
    sysInitmem (phMsize s.mem ph - phFsize s.mem ph).toNat (dstStart + phFsize s.mem ph + 1) s
  else s

/-- The loop from `i` on. -/
def loadLoop (bits : Fin 64) (fill : Addr → BitVec 8) (start : Addr) :
    Nat → Nat → LoadState → LoadState
  | 0, _, s => s
  | fuel + 1, i, s =>
      if i < ehPhnum s.mem start then
        loadLoop bits fill start fuel (i + 1) (loadRound bits fill start i s)
      else s

/-- `sys$elf_loader`; `none` when it panics.  `eh->phnum` has 16 bits. -/
def sysElfLoader (bits : Fin 64) (fill : Addr → BitVec 8) (start : Addr) (m : Mem) :
    Option (Addr × LoadState) :=
  if ehType m start ≠ 2 ∨ ehPhoff m start = 0 then none
  else
    let s := loadLoop bits fill start 65536 0 ⟨m, [], []⟩
    some (ehEntry s.mem start, s)

/-! ### The segments -/

structure Segment where
  source : Addr
  paddr : Addr
  fsize : Nat
  msize : Nat
deriving DecidableEq, Repr

namespace Segment

def size (g : Segment) : Nat := max g.fsize g.msize

/-- `a` is a byte of the segment. -/
def Owns (g : Segment) (a : Addr) : Prop := Within g.paddr g.size a

/-- A part is to be cleared. -/
def Cleared (g : Segment) : Prop := g.fsize < g.msize

/-- The first byte behind the segment. -/
def behind (g : Segment) : Addr := off g.paddr g.size

/-- The first byte behind the file part. -/
def border (g : Segment) : Addr := off g.paddr g.fsize

/-- `a` is on the pages of the segment. -/
def Page (bits : Fin 64) (g : Segment) (a : Addr) : Prop :=
  ∃ x : Nat, g.paddr.toNat / 2 ^ bits.val * 2 ^ bits.val ≤ x ∧
    x < (g.paddr.toNat + g.size + (2 ^ bits.val - 1)) / 2 ^ bits.val * 2 ^ bits.val ∧
      a = BitVec.ofNat 64 x

end Segment

/-- The segment of a program header. -/
def segmentAt (m : Mem) (start ph : Addr) : Segment :=
  ⟨start + phOffset m ph, phPaddr m ph, (phFsize m ph).toNat, (phMsize m ph).toNat⟩

def segment (m : Mem) (start : Addr) (i : Nat) : Segment := segmentAt m start (phdr m start i)

/-- The segment `i` is loaded. -/
def Loads (m : Mem) (start : Addr) (i : Nat) : Prop :=
  i < ehPhnum m start ∧ phType m (phdr m start i) = 1

/-- The segments of the image `m` are in memory. -/
structure Loaded (m : Mem) (start : Addr) (s : LoadState) : Prop where
  file : ∀ i, Loads m start i → ∀ k, k < (segment m start i).fsize →
    s.mem (off (segment m start i).paddr k) = m (off (segment m start i).source k)
  zero : ∀ i, Loads m start i → ∀ k, (segment m start i).fsize ≤ k → k < (segment m start i).size →
    s.mem (off (segment m start i).paddr k) = 0
  inside : ∀ a ∈ s.written, ∃ i, Loads m start i ∧ (segment m start i).Owns a

/-- The loader returns with the image loaded. -/
def LoadRight (bits : Fin 64) (fill : Addr → BitVec 8) (m : Mem) (start : Addr) : Prop :=
  ∃ entry s, sysElfLoader bits fill start m = some (entry, s) ∧ Loaded m start s

/-- A byte of the image: of the ELF header, of a program header or of what is copied. -/
def ImageByte (m : Mem) (start a : Addr) : Prop :=
  Within start 64 a ∨ (∃ i, i < ehPhnum m start ∧ Within (phdr m start i) 56 a) ∨
    ∃ i, Loads m start i ∧ Within (segment m start i).source (segment m start i).fsize a

/-- An image that is accepted.  Program headers have 56 bytes. -/
structure ElfImage (m : Mem) (start : Addr) : Prop where
  type : ehType m start = 2
  phoff : ehPhoff m start ≠ 0
  phentsize : 56 ≤ ehPhentsize m start
  apart : ∀ i, i < ehPhnum m start → ∀ a, Within (phdr m start i) 56 a → ¬ Within start 64 a

/-- The pages are new ones: no page is one of two segments, or has a byte of the image. -/
structure Placed (bits : Fin 64) (m : Mem) (start : Addr) : Prop where
  disjoint : ∀ i j, Loads m start i → Loads m start j → i ≠ j →
    ∀ a, (segment m start i).Page bits a → ¬ (segment m start j).Page bits a
  apart : ∀ i, Loads m start i → ∀ a, (segment m start i).Page bits a → ¬ ImageByte m start a

/-! ### The condition -/

/-- What the loader does to the header `i`. -/
def adjustHeader (m : Mem) (start : Addr) (i : Nat) (mem : Mem) : Mem :=
  let g := segment m start i
  if g.msize < g.fsize then storeField mem (off (phdr m start i) 40) g.fsize 8 else mem

/-- The image once `n` headers have been adjusted. -/
def adjusted (m : Mem) (start : Addr) : Nat → Mem
  | 0 => m
  | n + 1 => adjustHeader m start n (adjusted m start n)

/-- A segment that is loaded behind `i` and before `n` has its clear step run into `a`. -/
def ClearsBetween (m : Mem) (start : Addr) (i n : Nat) (a : Addr) : Prop :=
  ∃ l, i < l ∧ l < n ∧ Loads m start l ∧ (segment m start l).Cleared ∧ (segment m start l).behind = a

def LaterClears (m : Mem) (start : Addr) (i : Nat) (a : Addr) : Prop :=
  ClearsBetween m start i (ehPhnum m start) a

/-- The condition.  Behind each segment with a part to be cleared there is a segment, and its border is
    zero without being cleared; a byte of the file is zero when a later clear step runs into its place,
    and otherwise no adjusted header changes it. -/
structure LoadCondition (fill : Addr → BitVec 8) (m : Mem) (start : Addr) : Prop where
  followed : ∀ i, Loads m start i → (segment m start i).Cleared →
    ∃ j, Loads m start j ∧ (segment m start j).Owns (segment m start i).behind
  border : ∀ i, Loads m start i → (segment m start i).Cleared →
    fill (segment m start i).border = 0 ∨ LaterClears m start i (segment m start i).border
  cleared : ∀ i, Loads m start i → ∀ k, k < (segment m start i).fsize →
    LaterClears m start i (off (segment m start i).paddr k) → m (off (segment m start i).source k) = 0
  copied : ∀ i, Loads m start i → ∀ k, k < (segment m start i).fsize →
    ¬ LaterClears m start i (off (segment m start i).paddr k) →
      adjusted m start (i + 1) (off (segment m start i).source k) =
        m (off (segment m start i).source k)

attribute [local irreducible] field storeField

/-! ### Pages -/

section

variable {bits : Fin 64} {g : Segment} {a : Addr}

/-- `base` -/
def Segment.base (bits : Fin 64) (g : Segment) : Addr :=
  BitVec.ofNat 64 (pageRoundDown g.paddr.toNat (2 ^ bits.val))

/-- `size` -/
def Segment.length (bits : Fin 64) (g : Segment) : Addr :=
  BitVec.ofNat 64 (pageRoundUp (g.paddr + BitVec.ofNat 64 g.size).toNat (2 ^ bits.val)) - g.base bits

/-- The first page. -/
def Segment.low (bits : Fin 64) (g : Segment) : Nat := g.paddr.toNat / 2 ^ bits.val * 2 ^ bits.val

/-- Behind the last page. -/
def Segment.high (bits : Fin 64) (g : Segment) : Nat :=
  (g.paddr.toNat + g.size + (2 ^ bits.val - 1)) / 2 ^ bits.val * 2 ^ bits.val

theorem Segment.page_iff :
    g.Page bits a ↔ ∃ x, g.low bits ≤ x ∧ x < g.high bits ∧ a = BitVec.ofNat 64 x := Iff.rfl

theorem Segment.low_le (bits : Fin 64) (g : Segment) : g.low bits ≤ g.paddr.toNat :=
  Nat.div_mul_le_self _ _

theorem Segment.le_high (bits : Fin 64) (g : Segment) : g.paddr.toNat + g.size ≤ g.high bits := by
  have hpos : 0 < 2 ^ bits.val := Nat.two_pow_pos _
  have hmod := Nat.mod_lt (g.paddr.toNat + g.size + (2 ^ bits.val - 1)) hpos
  have hdiv := Nat.div_add_mod' (g.paddr.toNat + g.size + (2 ^ bits.val - 1)) (2 ^ bits.val)
  rw [high]
  omega

theorem Segment.owns_page (h : g.Owns a) : g.Page bits a := by
  obtain ⟨k, hk, rfl⟩ := h
  have hlow := g.low_le bits
  have hhigh := g.le_high bits
  refine g.page_iff.mpr ⟨g.paddr.toNat + k, by omega, by omega, ?_⟩
  rw [BitVec.ofNat_add, BitVec.ofNat_toNat, BitVec.setWidth_eq, off]

/-- Rounding commutes with wrapping around. -/
theorem mod_div_mul (x : Nat) (bits : Fin 64) :
    x % 2 ^ 64 / 2 ^ bits.val * 2 ^ bits.val = x / 2 ^ bits.val * 2 ^ bits.val % 2 ^ 64 := by
  obtain ⟨q, hq⟩ : ∃ q, 2 ^ 64 = 2 ^ bits.val * q := pow_dvd_pow 2 (by omega)
  rw [hq, Nat.mod_mul_right_div_self, ← Nat.mul_mod_mul_right, Nat.mul_comm q]

theorem Segment.length_eq (bits : Fin 64) (g : Segment) :
    g.length bits = BitVec.ofNat 64 (g.high bits - g.low bits) := by
  have hle : g.low bits ≤ g.high bits := by
    have hlow := g.low_le bits
    have hhigh := g.le_high bits
    omega
  have hup : pageRoundUp (g.paddr + BitVec.ofNat 64 g.size).toNat (2 ^ bits.val) =
      g.high bits % 2 ^ 64 := by
    rw [pageRoundUp, Alloc.wordAdd, Alloc.wordSize, BitVec.toNat_add, BitVec.toNat_ofNat,
      Nat.add_mod_mod, Nat.mod_add_mod, mod_div_mul, high]
  have hmod : BitVec.ofNat 64 (g.high bits % 2 ^ 64) = BitVec.ofNat 64 (g.high bits) := by
    apply BitVec.eq_of_toNat_eq
    simp
  have hlow : g.low bits < 2 ^ 64 := Nat.lt_of_le_of_lt (g.low_le bits) g.paddr.isLt
  rw [length, hup, hmod]
  exact BitVec.ofNat_sub_ofNat_of_le _ _ hlow hle

/-- How far an address is from the first page. -/
theorem Segment.toNat_sub_base {x : Nat} (h : g.low bits ≤ x) :
    (BitVec.ofNat 64 x - g.base bits).toNat = (x - g.low bits) % 2 ^ 64 := by
  have hlow : g.low bits < 2 ^ 64 := Nat.lt_of_le_of_lt (g.low_le bits) g.paddr.isLt
  have hsub : BitVec.ofNat 64 x - g.base bits = BitVec.ofNat 64 (x - g.low bits) :=
    BitVec.ofNat_sub_ofNat_of_le _ _ hlow h
  rw [hsub, BitVec.toNat_ofNat]

/-- The new memsection is on the pages. -/
theorem Segment.page_of_lt (h : a - g.base bits < g.length bits) : g.Page bits a := by
  have hlt : (a - g.base bits).toNat < g.high bits - g.low bits := by
    rw [length_eq, BitVec.lt_def, BitVec.toNat_ofNat] at h
    exact Nat.lt_of_lt_of_le h (Nat.mod_le _ _)
  refine g.page_iff.mpr ⟨g.low bits + (a - g.base bits).toNat, by omega, by omega, ?_⟩
  have hbase : BitVec.ofNat 64 (g.low bits) = g.base bits := rfl
  rw [BitVec.ofNat_add, hbase, BitVec.ofNat_toNat, BitVec.setWidth_eq, BitVec.add_comm,
    BitVec.sub_add_cancel]

/-- When the pages are not all there are, the memsection is all of them. -/
theorem Segment.lt_of_page {b : Addr} (hb : ¬ g.Page bits b) (h : g.Page bits a) :
    a - g.base bits < g.length bits := by
  have hsmall : g.high bits - g.low bits < 2 ^ 64 := by
    by_contra hbig
    apply hb
    have hlt := (b - g.base bits).isLt
    refine g.page_iff.mpr ⟨g.low bits + (b - g.base bits).toNat, by omega, by omega, ?_⟩
    have hbase : BitVec.ofNat 64 (g.low bits) = g.base bits := rfl
    rw [BitVec.ofNat_add, hbase, BitVec.ofNat_toNat, BitVec.setWidth_eq, BitVec.add_comm,
      BitVec.sub_add_cancel]
  obtain ⟨x, hlow, hhigh, rfl⟩ := g.page_iff.mp h
  rw [length_eq, BitVec.lt_def, toNat_sub_base hlow, BitVec.toNat_ofNat, Nat.mod_eq_of_lt hsmall]
  exact Nat.lt_of_le_of_lt (Nat.mod_le _ _) (by omega)

end

/-! ### The image -/

section

variable {bits : Fin 64} {m mem : Mem} {start a : Addr} {i j k : Nat}

theorem segment_fsize_lt (m : Mem) (start : Addr) (i : Nat) : (segment m start i).fsize < 2 ^ 64 :=
  BitVec.isLt _

theorem segment_msize_lt (m : Mem) (start : Addr) (i : Nat) : (segment m start i).msize < 2 ^ 64 :=
  BitVec.isLt _

theorem segment_size_lt (m : Mem) (start : Addr) (i : Nat) : (segment m start i).size < 2 ^ 64 :=
  max_lt (segment_fsize_lt m start i) (segment_msize_lt m start i)

theorem ehPhnum_lt (m : Mem) (start : Addr) : ehPhnum m start < 65536 := field_lt _ _ 2

/-- Program headers have no byte in common. -/
theorem ElfImage.headers_apart (h : ElfImage m start) (hi : i < ehPhnum m start)
    (hj : j < ehPhnum m start) (hij : i ≠ j) (ha : Within (phdr m start i) 56 a) :
    ¬ Within (phdr m start j) 56 a := by
  obtain ⟨c, hc, rfl⟩ := ha
  rintro ⟨d, hd, heq⟩
  have hsize := h.phentsize
  have hlt : ehPhentsize m start < 65536 := field_lt _ _ 2
  have hnum := ehPhnum_lt m start
  have hbound : ∀ l, l < ehPhnum m start → ehPhentsize m start * l ≤ 65536 * 65536 := by
    intro l hl
    exact Nat.mul_le_mul (by omega) (by omega)
  have hboundi := hbound i hi
  have hboundj := hbound j hj
  rw [phdr, phdr, off_off, off_off, off_inj (by omega) (by omega)] at heq
  rcases Nat.lt_or_gt_of_ne hij with hlt' | hlt'
  · have hmul : ehPhentsize m start * (i + 1) ≤ ehPhentsize m start * j := Nat.mul_le_mul_left _ hlt'
    rw [Nat.mul_succ] at hmul
    omega
  · have hmul : ehPhentsize m start * (j + 1) ≤ ehPhentsize m start * i := Nat.mul_le_mul_left _ hlt'
    rw [Nat.mul_succ] at hmul
    omega

theorem within_msize (h : Within (off (phdr m start i) 40) 8 a) : Within (phdr m start i) 56 a :=
  h.of_off (by omega)

theorem adjustHeader_of_not_within (h : ¬ Within (off (phdr m start i) 40) 8 a) :
    adjustHeader m start i mem a = mem a := by
  simp only [adjustHeader]
  split_ifs
  · exact storeField_of_not_within h
  · rfl

theorem adjustHeader_congr {mem' : Mem} (h : mem a = mem' a) :
    adjustHeader m start i mem a = adjustHeader m start i mem' a := by
  simp only [adjustHeader]
  split_ifs
  · exact storeField_congr h
  · exact h

/-- Headers that are adjusted are not these bytes. -/
theorem adjusted_of_not_within (h : ∀ i, i < k → ¬ Within (phdr m start i) 56 a) :
    adjusted m start k a = m a := by
  induction k with
  | zero => rfl
  | succ k ih =>
    rw [adjusted, adjustHeader_of_not_within fun hin => h k (by omega) (within_msize hin)]
    exact ih fun i hi => h i (by omega)

theorem ElfImage.adjusted_eh (h : ElfImage m start) (hk : k ≤ ehPhnum m start)
    (ha : Within start 64 a) : adjusted m start k a = m a :=
  adjusted_of_not_within fun i hi hin => h.apart i (by omega) a hin ha

theorem ElfImage.adjusted_ph (h : ElfImage m start) (hk : k ≤ j) (hj : j < ehPhnum m start)
    (ha : Within (phdr m start j) 56 a) : adjusted m start k a = m a :=
  adjusted_of_not_within fun i hi hin =>
    h.headers_apart (by omega) hj (by omega) hin ha

/-- Memory that holds the image with the first `k` headers adjusted. -/
def Holds (m : Mem) (start : Addr) (k : Nat) (mem : Mem) : Prop :=
  ∀ a, ImageByte m start a → mem a = adjusted m start k a

theorem Holds.adjust (h : Holds m start k mem) :
    Holds m start (k + 1) (adjustHeader m start k mem) :=
  fun a ha => adjustHeader_congr (h a ha)

/-- The ELF header is read as it was. -/
theorem Holds.eh (h : Holds m start k mem) (himage : ElfImage m start) (hk : k ≤ ehPhnum m start) :
    ehType mem start = ehType m start ∧ ehEntry mem start = ehEntry m start ∧
      ehPhnum mem start = ehPhnum m start ∧ ∀ i, phdr mem start i = phdr m start i := by
  have hsame : ∀ a, Within start 64 a → mem a = m a := by
    intro a ha
    rw [h a (Or.inl ha), himage.adjusted_eh hk ha]
  refine ⟨field_within hsame (by omega), ?_, field_within hsame (by omega), fun i => ?_⟩
  · rw [ehEntry, ehEntry, word, word, field_within hsame (by omega)]
  · rw [phdr, phdr, ehPhoff, ehPhoff, word, word, ehPhentsize, ehPhentsize,
      field_within hsame (by omega), field_within hsame (by omega)]

/-- A header that is still to be adjusted is read as it was. -/
theorem Holds.ph (h : Holds m start k mem) (himage : ElfImage m start) (hk : k ≤ i)
    (hi : i < ehPhnum m start) : phType mem (phdr m start i) = phType m (phdr m start i) ∧
      segmentAt mem start (phdr m start i) = segment m start i := by
  have hsame : ∀ a, Within (phdr m start i) 56 a → mem a = m a := by
    intro a ha
    rw [h a (Or.inr (Or.inl ⟨i, hi, ha⟩)), himage.adjusted_ph hk hi ha]
  constructor
  · rw [phType, phType, ← off_zero (phdr m start i), field_within hsame (by omega)]
  · simp only [segment, segmentAt, phOffset, phPaddr, phFsize, phMsize, word,
      field_within hsame (show 8 + 8 ≤ 56 by omega), field_within hsame (show 24 + 8 ≤ 56 by omega),
      field_within hsame (show 32 + 8 ≤ 56 by omega), field_within hsame (show 40 + 8 ≤ 56 by omega)]

/-- The header that has just been adjusted: `ph->msize` is the size of the segment. -/
theorem Holds.ph_adjusted (h : Holds m start (i + 1) mem) (himage : ElfImage m start)
    (hi : i < ehPhnum m start) : phType mem (phdr m start i) = phType m (phdr m start i) ∧
      segmentAt mem start (phdr m start i) =
        { segment m start i with msize := (segment m start i).size } := by
  have hsame : ∀ a, Within (phdr m start i) 56 a →
      mem a = adjustHeader m start i m a := by
    intro a ha
    rw [h a (Or.inr (Or.inl ⟨i, hi, ha⟩)), adjusted]
    exact adjustHeader_congr (himage.adjusted_ph (Nat.le_refl i) hi ha)
  have hfirst : ∀ a, Within (phdr m start i) 40 a → mem a = m a := by
    rintro a ⟨k, hk, rfl⟩
    rw [hsame _ (within_off (by omega)), adjustHeader_of_not_within]
    rintro ⟨l, hl, heq⟩
    rw [off_off, off_inj (by omega) (by omega)] at heq
    omega
  constructor
  · rw [phType, phType, ← off_zero (phdr m start i), field_within hfirst (by omega)]
  · have hmsize : (phMsize mem (phdr m start i)).toNat = (segment m start i).size := by
      have hread : phMsize mem (phdr m start i) =
          word (adjustHeader m start i m) (off (phdr m start i) 40) := by
        rw [phMsize, word, word, field_within hsame (by omega)]
      rw [hread, word, adjustHeader]
      split_ifs with hlt
      · rw [field_storeField (by omega), Segment.size, Nat.max_eq_left (Nat.le_of_lt hlt),
          BitVec.toNat_ofNat, Nat.mod_mod_of_dvd _ (by decide),
          Nat.mod_eq_of_lt (segment_fsize_lt m start i)]
      · rw [Segment.size, Nat.max_eq_right (Nat.not_lt.mp hlt)]
        rfl
    simp only [segmentAt, hmsize]
    simp only [segment, segmentAt, phOffset, phPaddr, phFsize, word,
      field_within hfirst (show 8 + 8 ≤ 40 by omega), field_within hfirst (show 24 + 8 ≤ 40 by omega),
      field_within hfirst (show 32 + 8 ≤ 40 by omega)]

end

end FreeVMS.Boot
