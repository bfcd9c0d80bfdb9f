import FreeVMS.Lib.Run
import FreeVMS.Rtl.StrFixed

/-!
# Dynamic strings

A dynamic string is a descriptor with a block of its own. The routines give the block back and take
a new one, and they leave everything else alone: what is not in the heap, and the blocks that belong
to other strings.
-/

namespace FreeVMS.Rtl.Str

open Run (Ends)

/-! ## The heap -/

def Block.Holds (b : Block) (a : Nat) : Prop := b.address ≤ a ∧ a < b.address + b.size

theorem Block.holds_add {b : Block} {i : Nat} (h : i < b.size) : b.Holds (b.address + i) :=
  ⟨Nat.le_add_right _ _, Nat.add_lt_add_left h _⟩

/-- `free` can tell the two apart, and they have no byte in common. -/
structure Block.Apart (b b' : Block) : Prop where
  address : b.address ≠ b'.address
  bytes : ∀ a, b.Holds a → ¬ b'.Holds a

theorem Block.Apart.symm {b b' : Block} (h : b.Apart b') : b'.Apart b :=
  ⟨h.address.symm, fun a ha' ha => h.bytes a ha ha'⟩

/-- What is relied on of `calloc` and `malloc`: what they give out is apart from the blocks in use and
from what is not in the heap. -/
structure Allocates (place : Store → Nat → Nat) (static : Nat → Prop) : Prop where
  apart : ∀ σ n, place σ n ≠ 0 → ∀ b ∈ σ.blocks, Block.Apart ⟨place σ n, n⟩ b
  heap : ∀ σ n, place σ n ≠ 0 → ∀ a, Block.Holds ⟨place σ n, n⟩ a → ¬ static a

/-- The only way for a routine on well-formed strings not to return. -/
def OutOfMemory (place : Store → Nat → Nat) (fault : Fault) : Prop :=
  fault = .signal strInsvirmem ∧ ∃ σ n, 0 < n ∧ place σ n = 0

/-- The blocks in use are in the heap and apart from each other. -/
structure Tidy (static : Nat → Prop) (σ : Store) : Prop where
  address : ∀ b ∈ σ.blocks, b.address ≠ 0
  apart : ∀ b ∈ σ.blocks, ∀ b' ∈ σ.blocks, b = b' ∨ b.Apart b'
  heap : ∀ b ∈ σ.blocks, ∀ a, b.Holds a → ¬ static a

/-- A byte that is not in the heap, or in a block that is not one of `own`. -/
def Kept (static : Nat → Prop) (σ : Store) (own : List Nat) (a : Nat) : Prop :=
  static a ∨ ∃ b ∈ σ.blocks, b.address ∉ own ∧ b.Holds a

/-- Between two stores nothing has changed but the blocks of `own`, which are now those of `own'`. -/
structure Frame (static : Nat → Prop) (σ : Store) (own : List Nat) (σ' : Store) (own' : List Nat) :
    Prop where
  blocks : ∀ b ∈ σ.blocks, b.address ∉ own → b ∈ σ'.blocks ∧ b.address ∉ own'
  memory : ∀ a, Kept static σ own a → σ'.memory a = σ.memory a

/-- An allocator that never gives a byte out twice: behind all blocks in use, from `base` on. -/
def above (base : Nat) (σ : Store) (_ : Nat) : Nat :=
  σ.blocks.foldr (fun b top => max (b.address + b.size + 1) top) base

theorem le_above (base n : Nat) (σ : Store) : base ≤ above base σ n := by
  obtain ⟨m, blocks⟩ := σ
  induction blocks with
  | nil => exact Nat.le_refl _
  | cons b blocks ih => exact Nat.le_trans ih (Nat.le_max_right _ _)

theorem lt_above (base n : Nat) {σ : Store} {b : Block} (h : b ∈ σ.blocks) :
    b.address + b.size < above base σ n := by
  obtain ⟨m, blocks⟩ := σ
  induction blocks with
  | nil => cases h
  | cons b' blocks ih =>
    rcases List.mem_cons.mp h with rfl | h
    · exact Nat.lt_of_lt_of_le (Nat.lt_succ_self _) (Nat.le_max_left _ _)
    · exact Nat.lt_of_lt_of_le (ih h) (Nat.le_max_right _ _)

theorem above_allocates (base : Nat) : Allocates (above base) (· < base) := by
  constructor
  · intro σ n _ b hb
    have hlt := lt_above base n hb
    constructor
    · show above base σ n ≠ b.address
      omega
    · rintro a ⟨ha, -⟩ ⟨-, ha'⟩
      have ha : above base σ n ≤ a := ha
      omega
  · rintro σ n - a ⟨ha, -⟩ hstatic
    have ha : above base σ n ≤ a := ha
    have hle := le_above base n σ
    omega

theorem above_ne_zero {base : Nat} (hbase : 0 < base) (σ : Store) (n : Nat) : above base σ n ≠ 0 :=
  Nat.ne_of_gt (Nat.lt_of_lt_of_le hbase (le_above base n σ))

variable {place : Store → Nat → Nat} {static : Nat → Prop} {σ σ' σ'' : Store}
  {own own' own'' : List Nat}

theorem Tidy.of_blocks (h : Tidy static σ) (hsub : ∀ b ∈ σ'.blocks, b ∈ σ.blocks) :
    Tidy static σ' := by
  constructor
  · exact fun b hb => h.address b (hsub b hb)
  · exact fun b hb b' hb' => h.apart b (hsub b hb) b' (hsub b' hb')
  · exact fun b hb => h.heap b (hsub b hb)

/-- A block given out keeps the heap tidy. -/
theorem Tidy.cons (h : Tidy static σ) (ha : Allocates place static) {n : Nat}
    (hp : place σ n ≠ 0) (m : Memory) : Tidy static ⟨m, ⟨place σ n, n⟩ :: σ.blocks⟩ := by
  constructor
  · intro b hb
    rcases List.mem_cons.mp hb with rfl | hb
    · exact hp
    · exact h.address b hb
  · intro b hb b' hb'
    rcases List.mem_cons.mp hb with rfl | hb <;> rcases List.mem_cons.mp hb' with rfl | hb'
    · exact Or.inl rfl
    · exact Or.inr (ha.apart σ n hp b' hb')
    · exact Or.inr (ha.apart σ n hp b hb).symm
    · exact h.apart b hb b' hb'
  · intro b hb
    rcases List.mem_cons.mp hb with rfl | hb
    · exact ha.heap σ n hp
    · exact h.heap b hb

theorem Kept.mono {a : Nat} (h : Kept static σ own' a) (hsub : own ⊆ own') : Kept static σ own a := by
  rcases h with h | ⟨b, hb, hown, ha⟩
  · exact Or.inl h
  · exact Or.inr ⟨b, hb, fun hmem => hown (hsub hmem), ha⟩

/-- A byte of a block that is kept is not in another block. -/
theorem Kept.not_holds (hσ : Tidy static σ) {a : Nat} (h : Kept static σ own a) {b : Block}
    (hb : b ∈ σ.blocks) (hown : b.address ∈ own) : ¬ b.Holds a := by
  rcases h with h | ⟨b', hb', hown', ha⟩
  · exact fun ha => hσ.heap b hb a ha h
  · rcases hσ.apart b hb b' hb' with rfl | hapart
    · exact absurd hown hown'
    · exact fun ha' => hapart.bytes a ha' ha

/-- What is given out has nothing that is kept. -/
theorem Kept.not_given (ha : Allocates place static) {a n : Nat} (h : Kept static σ own a)
    (hp : place σ n ≠ 0) : ¬ Block.Holds ⟨place σ n, n⟩ a := by
  rcases h with h | ⟨b, hb, -, hholds⟩
  · exact fun hnew => ha.heap σ n hp a hnew h
  · exact fun hnew => (ha.apart σ n hp b hb).bytes a hnew hholds

namespace Frame

theorem refl : Frame static σ own σ own := ⟨fun _ hb hown => ⟨hb, hown⟩, fun _ _ => rfl⟩

theorem kept (h : Frame static σ own σ' own') {a : Nat} (ha : Kept static σ own a) :
    Kept static σ' own' a := by
  rcases ha with ha | ⟨b, hb, hown, ha⟩
  · exact Or.inl ha
  · obtain ⟨hb', hown'⟩ := h.blocks b hb hown
    exact Or.inr ⟨b, hb', hown', ha⟩

theorem trans (h : Frame static σ own σ' own') (h' : Frame static σ' own' σ'' own'') :
    Frame static σ own σ'' own'' := by
  constructor
  · intro b hb hown
    obtain ⟨hb', hown'⟩ := h.blocks b hb hown
    exact h'.blocks b hb' hown'
  · intro a ha
    rw [h'.memory a (h.kept ha), h.memory a ha]

/-- Blocks that are not touched may be counted among the own ones. -/
theorem append (h : Frame static σ own σ' own') (os : List Nat) :
    Frame static σ (own ++ os) σ' (own' ++ os) := by
  constructor
  · intro b hb hown
    rw [List.mem_append, not_or] at hown
    obtain ⟨hb', hown'⟩ := h.blocks b hb hown.1
    exact ⟨hb', by simp [hown', hown.2]⟩
  · exact fun a ha => h.memory a (ha.mono (List.subset_append_left own os))

/-- More may be own before, and less afterwards. -/
theorem weaken (h : Frame static σ own σ' own') {before after : List Nat} (hbefore : own ⊆ before)
    (hafter : after ⊆ own') : Frame static σ before σ' after := by
  constructor
  · intro b hb hown
    obtain ⟨hb', hown'⟩ := h.blocks b hb fun hmem => hown (hbefore hmem)
    exact ⟨hb', fun hmem => hown' (hafter hmem)⟩
  · exact fun a ha => h.memory a (ha.mono hbefore)

/-- A null pointer may be counted among the own ones. -/
theorem null (hσ : Tidy static σ) : Frame static σ own σ (0 :: own) :=
  ⟨fun b hb hown => ⟨hb, by simp [hσ.address b hb, hown]⟩, fun _ _ => rfl⟩

/-- A write inside an own block. -/
theorem write (hσ : Tidy static σ) {b : Block} (hb : b ∈ σ.blocks) {m : Memory}
    (hm : ∀ a, ¬ b.Holds a → m a = σ.memory a) :
    Frame static σ [b.address] { σ with memory := m } [b.address] :=
  ⟨fun _ hb' hown => ⟨hb', hown⟩,
    fun a ha => hm a (ha.not_holds hσ hb (List.mem_singleton.mpr rfl))⟩

end Frame

/-! ## Strings -/

theorem bytesAt_eq_iff {m : Memory} {p n : Nat} {s : List Byte} :
    bytesAt m p n = s ↔ s.length = n ∧ ∀ t (h : t < s.length), m (p + t) = s[t] := by
  constructor
  · rintro rfl
    exact ⟨length_bytesAt m p n, fun t _ => by simp [bytesAt]⟩
  · rintro ⟨rfl, h⟩
    apply List.ext_getElem (length_bytesAt m p _)
    intro t _ ht
    rw [← h t ht]
    simp [bytesAt]

theorem bytesAt_add (m : Memory) (p o k : Nat) : bytesAt m p (o + k) = bytesAt m p o ++ bytesAt m (p + o) k := by
  induction k with
  | zero => simp
  | succ k ih => rw [← Nat.add_assoc, bytesAt_snoc, ih, bytesAt_snoc, List.append_assoc, Nat.add_assoc]

/-- A part of a string. -/
theorem bytesAt_part {m : Memory} {p o k : Nat} {s : List Byte} (h : bytesAt m p s.length = s)
    (hk : k = 0 ∨ o + k ≤ s.length) : bytesAt m (p + o) k = (s.drop o).take k := by
  rcases hk with rfl | hk
  · simp
  · obtain ⟨-, hbytes⟩ := bytesAt_eq_iff.mp h
    rw [bytesAt_eq_iff]
    constructor
    · rw [List.length_take, List.length_drop]
      omega
    · intro t ht
      rw [List.length_take, List.length_drop] at ht
      rw [List.getElem_take, List.getElem_drop, Nat.add_assoc]
      exact hbytes (o + t) (by omega)

/-- A dynamic descriptor that holds the string `s` in a block of its own. -/
structure Dynamic (σ : Store) (d : Descriptor) (s : List Byte) : Prop where
  dynamic : d.bClass = .d
  length : d.wLength.toNat = s.length
  bytes : bytesAt σ.memory d.aPointer s.length = s
  owned : d.aPointer = 0 ∧ s = [] ∨
    d.aPointer ≠ 0 ∧ ∃ size, ⟨d.aPointer, size⟩ ∈ σ.blocks ∧ s.length ≤ size

/-- A descriptor of any class that stands for the string `s` at `p`. -/
structure Text (m : Memory) (source : Descriptor) (p : Nat) (s : List Byte) : Prop where
  analyzed : strAnalyzeSdesc m source = .ok (BitVec.ofNat 16 s.length, p)
  fits : s.length < 65536
  bytes : bytesAt m p s.length = s

/-- A descriptor of any class that stands for the string `s` at `p`, of which nothing is in the
blocks of `own`. -/
structure Source (static : Nat → Prop) (σ : Store) (own : List Nat) (source : Descriptor) (p : Nat)
    (s : List Byte) : Prop where
  analyzed : strAnalyzeSdesc σ.memory source = .ok (BitVec.ofNat 16 s.length, p)
  fits : s.length < 65536
  bytes : bytesAt σ.memory p s.length = s
  kept : ∀ a, source.aPointer ≤ a → a < p + s.length → Kept static σ own a

/-- A call that has worked on the string of a block `q` leaves the string `s` and nothing else
changed. -/
structure Leaves (static : Nat → Prop) (σ : Store) (q : Nat) (s : List Byte) (out : Outcome) :
    Prop where
  tidy : Tidy static out.store
  dynamic : Dynamic out.store out.destination s
  frame : Frame static σ [q] out.store [out.destination.aPointer]

variable {d source : Descriptor} {s t : List Byte} {p q : Nat}

theorem Dynamic.lt (h : Dynamic σ d s) : s.length < 65536 := by
  rw [← h.length]
  exact d.wLength.isLt

theorem Dynamic.wLength_eq (h : Dynamic σ d s) : d.wLength = BitVec.ofNat 16 s.length := by
  rw [← h.length, BitVec.ofNat_toNat, BitVec.setWidth_eq]

/-- A descriptor holds one string. -/
theorem Dynamic.unique (h : Dynamic σ d s) (h' : Dynamic σ d t) : s = t := by
  rw [← h.bytes, ← h'.bytes, ← h.length, ← h'.length]

theorem Dynamic.class_eq (h : Dynamic σ d s) : isStringClass d = strNormal := by
  simp [isStringClass, h.dynamic]

theorem Dynamic.analyzed (h : Dynamic σ d s) (m : Memory) :
    strAnalyzeSdesc m d = .ok (d.wLength, d.aPointer) := by
  have hnull : ¬ (d.aPointer = 0 ∧ d.wLength ≠ 0) := by
    rintro ⟨hp, hw⟩
    rcases h.owned with ⟨-, rfl⟩ | ⟨hp', -⟩
    · exact hw (h.wLength_eq.trans rfl)
    · exact hp' hp
  simp only [strAnalyzeSdesc, h.class_eq, h.dynamic, ne_eq, not_true_eq_false, if_false, if_neg hnull,
    reduceCtorEq]

/-- The analysis looks at memory for varying strings only, and there at the first byte. -/
theorem strAnalyzeSdesc_congr {m m' : Memory} (h : source.bClass = .vs → m' source.aPointer = m source.aPointer) :
    strAnalyzeSdesc m' source = strAnalyzeSdesc m source := by
  by_cases hvs : source.bClass = .vs
  · simp only [strAnalyzeSdesc, h hvs]
  · simp only [strAnalyzeSdesc, hvs, if_false]

/-- Where the text begins. -/
theorem strAnalyzeSdesc_address {m : Memory} {n : BitVec 16}
    (h : strAnalyzeSdesc m source = .ok (n, p)) :
    p = if source.bClass = .vs then source.aPointer + 2 else source.aPointer := by
  simp only [strAnalyzeSdesc] at h
  split_ifs at h ⊢ with h1 h2 h3 h4 h5
  · exact (Prod.mk.inj (Except.ok.inj h)).2.symm
  · exact (Prod.mk.inj (Except.ok.inj h)).2.symm

theorem Text.toNat_length {m : Memory} (h : Text m source p s) :
    (BitVec.ofNat 16 s.length).toNat = s.length := by
  rw [BitVec.toNat_ofNat, Nat.mod_eq_of_lt h.fits]

/-- Any text that is not at address 0 is a string. -/
theorem Text.of_bytes {m : Memory} (hp : p ≠ 0) (hfits : s.length < 65536)
    (hbytes : bytesAt m p s.length = s) : Text m ⟨BitVec.ofNat 16 s.length, .s, p⟩ p s := by
  refine ⟨?_, hfits, hbytes⟩
  simp [strAnalyzeSdesc, isStringClass, hp]

namespace Source

theorem text (h : Source static σ own source p s) : Text σ.memory source p s :=
  ⟨h.analyzed, h.fits, h.bytes⟩

theorem null (h : Source static σ own source p s) (hp : p = 0) : s = [] := by
  subst hp
  have hzero := strAnalyzeSdesc_null h.analyzed
  have hlength : s.length % 65536 = 0 := by
    rw [← BitVec.toNat_ofNat s.length 16, hzero]
    rfl
  rw [Nat.mod_eq_of_lt h.fits] at hlength
  exact List.eq_nil_of_length_eq_zero hlength

theorem toNat_length (h : Source static σ own source p s) :
    (BitVec.ofNat 16 s.length).toNat = s.length :=
  h.text.toNat_length

/-- The bytes of the text are kept. -/
theorem kept_text (h : Source static σ own source p s) {a : Nat} (hp : p ≤ a)
    (ha : a < p + s.length) : Kept static σ own a := by
  apply h.kept a _ ha
  have haddress := strAnalyzeSdesc_address h.analyzed
  split at haddress
  · omega
  · omega

theorem mono (h : Source static σ own' source p s) (hsub : own ⊆ own') :
    Source static σ own source p s :=
  { h with kept := fun a hp ha => (h.kept a hp ha).mono hsub }

/-- A source stays one while other strings are worked on. -/
theorem frame (h : Source static σ own source p s) (hframe : Frame static σ own σ' own') :
    Source static σ' own' source p s := by
  constructor
  · rw [← h.analyzed]
    apply strAnalyzeSdesc_congr
    intro hvs
    have haddress := strAnalyzeSdesc_address h.analyzed
    rw [if_pos hvs] at haddress
    exact hframe.memory _ (h.kept _ (Nat.le_refl _) (by omega))
  · exact h.fits
  · rw [bytesAt_congr fun i hi => hframe.memory _ (h.kept_text (by omega) (by omega)), h.bytes]
  · exact fun a hp ha => hframe.kept (h.kept a hp ha)

/-- Nothing of a source is in the block of a null pointer. -/
theorem to_null (h : Source static σ own source p s) (hσ : Tidy static σ) :
    Source static σ [0] source p s :=
  (h.frame (Frame.null hσ)).mono (by simp)

end Source

/-- A text outside the heap. -/
theorem Source.of_static (hp : p ≠ 0) (hfits : s.length < 65536)
    (hbytes : bytesAt σ.memory p s.length = s)
    (hstatic : ∀ a, p ≤ a → a < p + s.length → static a) :
    Source static σ own ⟨BitVec.ofNat 16 s.length, .s, p⟩ p s :=
  ⟨(Text.of_bytes hp hfits hbytes).analyzed, hfits, hbytes,
    fun a ha ha' => Or.inl (hstatic a ha ha')⟩

/-- Two addresses that are not those of one block. -/
def Distinct (p q : Nat) : Prop := p = 0 ∨ p ≠ q

theorem Distinct.symm (h : Distinct p q) : Distinct q p := by
  unfold Distinct at *
  omega

/-- A string with a block of its own stays while another one is worked on. -/
theorem Dynamic.frame (h : Dynamic σ d s) (hown : Distinct d.aPointer q) {q' : Nat}
    (hframe : Frame static σ [q] σ' [q']) :
    Dynamic σ' d s ∧ Distinct d.aPointer q' := by
  rcases h.owned with hnull | ⟨hp, size, hb, hsize⟩
  · obtain ⟨hzero, rfl⟩ := hnull
    exact ⟨⟨h.dynamic, h.length, rfl, Or.inl ⟨hzero, rfl⟩⟩, Or.inl hzero⟩
  · have hq : d.aPointer ≠ q := hown.resolve_left hp
    obtain ⟨hb', hq'⟩ := hframe.blocks _ hb (by simpa using hq)
    refine ⟨⟨h.dynamic, h.length, ?_, Or.inr ⟨hp, size, hb', hsize⟩⟩, Or.inr (by simpa using hq')⟩
    rw [bytesAt_congr fun i hi => hframe.memory _ (Or.inr ⟨_, hb, by simpa using hq, ?_⟩), h.bytes]
    exact ⟨Nat.le_add_right _ _, Nat.add_lt_add_left (Nat.lt_of_lt_of_le hi hsize) _⟩

/-- A string with a block of its own is a source for another one. -/
theorem Dynamic.to_source (h : Dynamic σ d s) (hown : Distinct d.aPointer q) :
    Source static σ [q] d d.aPointer s := by
  refine ⟨by rw [h.analyzed, h.wLength_eq], h.lt, h.bytes, ?_⟩
  intro a hp ha
  rcases h.owned with ⟨-, rfl⟩ | ⟨hnz, size, hb, hsize⟩
  · exact absurd ha (by simp; omega)
  · exact Or.inr ⟨_, hb, by simpa using hown.resolve_left hnz, hp, Nat.lt_of_lt_of_le ha (Nat.add_le_add_left hsize _)⟩

/-! ## A heap with one string -/

/-- `ABCDE…` at every thousand, and one block in use. -/
def sample : Store := ⟨fun a => BitVec.ofNat 8 (a % 1000 + 65), [⟨10000, 2⟩]⟩

/-- `AB` -/
def sampleString : Descriptor := ⟨2, .d, 10000⟩

theorem sample_tidy : Tidy (· < 10000) sample := by
  constructor
  · simp [sample]
  · simp [sample]
  · intro b hb a ha
    rw [List.mem_singleton.mp hb] at ha
    exact Nat.not_lt.mpr ha.1

theorem sample_dynamic : Dynamic sample sampleString [65, 66] :=
  ⟨rfl, rfl, rfl, Or.inr ⟨by decide, 2, List.mem_singleton.mpr rfl, Nat.le_refl _⟩⟩

/-- The text of `n` bytes at 2000. -/
theorem sample_source {n : Nat} (hn : n ≤ 1000) (own : List Nat) :
    Source (· < 10000) sample own ⟨BitVec.ofNat 16 n, .s, 2000⟩ 2000 (bytesAt sample.memory 2000 n) := by
  have h := @Source.of_static (· < 10000) sample own (bytesAt sample.memory 2000 n) 2000
  rw [length_bytesAt] at h
  exact h (by decide) (by omega) rfl fun a _ ha => by
    show a < 10000
    omega

end FreeVMS.Rtl.Str
