import FreeVMS.Lib.Doubling
import FreeVMS.Rtl.LookupKey
import FreeVMS.Rtl.StrSearch
import FreeVMS.Rtl.StrSplice

/-!
# Node specifications

`lib$build_nodespec` doubles the quotation marks of the primary node name: the first one on the way
from `nodespec` into a temporary string, and the next one on the way back. The search for the first
one starts at position 0, and looks at the byte in front of the buffer.
-/

namespace FreeVMS.Rtl.Str

open Run (Ends)
open Lib.Occurrence
open Lib.Doubling

def libInvarg : Nat := 1409588

/-- `'"'` -/
def quotationMark : Byte := 34

/-- `str$$malloc_sd` for a C string of that length. -/
def strMallocSd (place : Store → Nat → Nat) (string : Nat) (tempLen : BitVec 16) (σ : Store) :
    Except Fault Outcome := do
  let temp ← strGet1Dx place tempLen nullString σ
  strCopyR place temp.destination tempLen string temp.store

/-- `str$copy_dx` -/
def strCopyDx (place : Store → Nat → Nat) (d source : Descriptor) (σ : Store) :
    Except Fault Outcome := do
  let (s1Length, s1) ← strAnalyzeSdesc σ.memory source
  strCopyR place d s1Length s1 σ

/-- `if ( quote_pos != 0 ) str$replace (...)` -/
def replaceFound (place : Store → Nat → Nat) (destin source : Descriptor) (quotePos : Nat)
    (sub : Descriptor) (σ : Store) : Except Fault Outcome :=
  if quotePos ≠ 0 then
    strReplace place destin source (BitVec.ofNat 64 quotePos) (BitVec.ofNat 64 quotePos) sub σ
  else .ok ⟨strNormal, destin, σ⟩

/-- `duplicate quotation marks`, with no result when a byte is examined that may not be. -/
def duplicateQuotes (place : Store → Nat → Nat) (readable : Nat → Bool)
    (quote doubleQuote nodespec : Descriptor) (σ : Store) : Except Fault (Option Outcome) := do
  match ← strPosition σ.memory readable nodespec quote 0 with
  | none => return none
  | some quotePos =>
    let temp ← replaceFound place nullString nodespec quotePos doubleQuote σ
    match ← strPosition temp.store.memory readable temp.destination quote (quotePos + 2) with
    | none => return none
    | some quotePos =>
      let out ← replaceFound place nodespec temp.destination quotePos doubleQuote temp.store
      return some out

/-- An argument that may be left out: the address of its descriptor, which is 0 then. -/
structure Argument where
  address : BitVec 64
  descriptor : Descriptor

/-- `if ( (unsigned int) acs != (unsigned int) NULL ) str$append (nodespec,acs);` -/
def appendGiven (place : Store → Nat → Nat) (argument : Argument) (nodespec : Outcome) :
    Except Fault Outcome :=
  if argument.address.setWidth 32 ≠ (0 : BitVec 32) then
    strAppend place nodespec.destination argument.descriptor nodespec.store
  else .ok nodespec

/-- `Truncate node name to 1024 characters` -/
def truncateName (place : Store → Nat → Nat) (primary : Descriptor) (nodespec : Outcome) :
    Except Fault Outcome := do
  let (primaryLength, _) ← strAnalyzeSdesc nodespec.store.memory primary
  if 1024 < primaryLength then
    let out ← strLeft place nodespec.destination primary 1024 nodespec.store
    return { out with status := libStrtru }
  else return { nodespec with status := normal }

/-- `Set nodespec length` -/
def setLength (nodespecLength : Bool) (nodespec : Outcome) :
    Except Fault (Option (BitVec 16)) := do
  if nodespecLength then
    let (primaryLength, _) ← strAnalyzeSdesc nodespec.store.memory nodespec.destination
    return some primaryLength
  else return none

/-- What a call leaves: its status, `nodespec`, what it has stored where there was a place for it,
and the memory. -/
structure Nodespec where
  status : Nat
  nodespec : Descriptor
  nodespecLength : Option (BitVec 16)
  store : Store

/-- `lib$build_nodespec`. The two C strings `"\""` and `"\"\""` are at `quoteText` and
`doubleQuoteText`. There is no result when a byte is examined that may not be. -/
def libBuildNodespec (place : Store → Nat → Nat) (readable : Nat → Bool)
    (quoteText doubleQuoteText : Nat) (primary nodespec : Descriptor) (acs secondary : Argument)
    (nodespecLength : Bool) (σ : Store) : Except Fault (Option Nodespec) := do
  let (_, primaryPtr) ← strAnalyzeSdesc σ.memory primary
  if primaryPtr = 0 then return some ⟨libInvarg, nodespec, none, σ⟩
  let quote ← strMallocSd place quoteText 1 σ
  let doubleQuote ← strMallocSd place doubleQuoteText 2 quote.store
  let copy ← strCopyDx place nodespec primary doubleQuote.store
  match ← duplicateQuotes place readable quote.destination doubleQuote.destination
      copy.destination copy.store with
  | none => return none
  | some out =>
    let out ← appendGiven place acs out
    let out ← appendGiven place secondary out
    let out ← truncateName place primary out
    let length ← setLength nodespecLength out
    let freed ← strFree1Dx quote.destination out.store
    let freed ← strFree1Dx doubleQuote.destination freed.store
    return some ⟨out.status, out.destination, length, freed.store⟩

variable {place : Store → Nat → Nat} {static : Nat → Prop} {readable : Nat → Bool} {σ : Store}
  {d source : Descriptor} {s t u : List Byte} {p q : Nat}

/-! ## Searching from in front of a string -/

/-- A search from position 0 for one character looks at the byte in front of the string first. -/
theorem strPosition_in_front {m : Memory} {first second : Descriptor} {x : Byte}
    (hs : Text m first p s) (hu : Text m second q [x]) (hreads : Covers readable p s.length)
    (hreadu : Covers readable q 1) {start : Int} (hstart : startOf start s.length = 0) :
    (look m readable ((p : Int) - 1) = none → strPosition m readable first second start = .ok none) ∧
      (look m readable ((p : Int) - 1) = some x →
        strPosition m readable first second start = .ok (some 0)) ∧
      ∀ y, look m readable ((p : Int) - 1) = some y → y ≠ x →
        ∃ r, strPosition m readable first second start = .ok (some r) ∧
          FirstFrom (Occurs [x] s) 1 r := by
  have hx : look m readable (q : Int) = some x := by
    have hlook : look m readable ((q + 0 : Nat) : Int) = some (m (q + 0)) :=
      look_of_readable (hreadu 0 Nat.one_pos)
    rw [← (List.cons.inj hu.bytes).1]
    exact hlook
  have hsteps : ((s.length : Int) - [x].length + 1 - (0 - 1)).toNat =
      ((s.length : Int) - [x].length + 1 - ((1 : Nat) - 1)).toNat + 1 := by
    rw [List.length_singleton]
    omega
  have haddress : (p : Int) + (0 - 1) = p - 1 := by omega
  have hcompare : ∀ b, memcmpWithin m readable b q [x].length =
      (look m readable b).bind fun y =>
        if y ≠ x then some ((y.toNat : Int) - x.toNat) else some 0 := by
    intro b
    rw [List.length_singleton, memcmpWithin, hx]
    rfl
  rw [strPosition_eq hs hu (List.cons_ne_nil _ _), hstart, hsteps, searchLoop, haddress, hcompare]
  refine ⟨?_, ?_, ?_⟩
  · intro hlook
    rw [hlook]
    rfl
  · intro hlook
    rw [hlook]
    simp
  · intro y hlook hne
    have hdifferent : ((y.toNat : Int) - x.toNat) ≠ 0 := by
      intro h
      exact hne (BitVec.eq_of_toNat_eq (by omega))
    obtain ⟨r, hr, hfirst⟩ := @search_first s [x] (List.cons_ne_nil _ _)
      (fun loop => memcmpWithin m readable (p + loop) q [x].length) 1 (Nat.le_refl 1)
      fun j hj hfits => compare_window hs hu hreads hreadu hj hfits
    refine ⟨r, ?_, hfirst⟩
    rw [hlook]
    simp only [Option.bind_some, if_pos hne, Option.bind_eq_bind, if_neg hdifferent]
    exact congrArg Except.ok hr

/-! ## The byte in front of the buffer -/

/-- The buffer of a dynamic string into which `n` bytes are copied: its own if it is as long. -/
def copyBuffer (place : Store → Nat → Nat) (d : Descriptor) (n : BitVec 16) (σ : Store) : Nat :=
  if d.aPointer ≠ 0 ∧ d.wLength = n then d.aPointer
  else if n = 0 then 0
  else place σ n.toNat

theorem copyLoop_in_front (m : Memory) (dest source n : Nat) {a : Nat} (ha : a < dest) :
    copyLoop m dest source n a = m a := by
  induction n with
  | zero => rfl
  | succ n ih => rw [copyLoop, Function.update_of_ne (by omega), ih]

/-- A call has changed nothing in front of the buffer `q`. -/
structure Buffered (σ : Store) (q : Nat) (out : Outcome) : Prop where
  status : out.status = strNormal
  dynamic : out.destination.bClass = .d
  address : out.destination.aPointer = q
  memory : ∀ a, a < q → out.store.memory a = σ.memory a

theorem calloc_in_front (n a : Nat) (ha : a < place σ n) :
    (calloc place σ n).2.memory a = σ.memory a := by
  by_cases hp : place σ n = 0
  · omega
  · exact calloc_old hp fun hholds => Nat.not_le_of_lt ha hholds.1

/-- A descriptor with no block. -/
theorem strGet1Dx_buffered_null (hd : d.bClass = .d) (hp : d.aPointer = 0) {n : BitVec 16}
    {out : Outcome} (h : strGet1Dx place n d σ = .ok out) :
    Buffered σ (if n = 0 then 0 else place σ n.toNat) out := by
  unfold strGet1Dx at h
  simp only [hd, hp, ne_eq, not_true_eq_false, if_false, bind, Except.bind, pure, Except.pure, throw,
    throwThe, MonadExceptOf.throw] at h
  by_cases hn : n = 0
  · rw [if_pos hn] at h ⊢
    cases h
    exact ⟨rfl, rfl, rfl, fun _ _ => rfl⟩
  · rw [if_neg hn] at h ⊢
    by_cases hplace : place σ n.toNat = 0
    · simp only [calloc, hplace, if_true] at h
      cases h
    · simp only [(calloc_eq hplace).1, if_neg hplace] at h
      cases h
      exact ⟨rfl, rfl, rfl, calloc_in_front n.toNat⟩

theorem strGet1Dx_buffered (hd : d.bClass = .d) {n : BitVec 16} {out : Outcome}
    (h : strGet1Dx place n d σ = .ok out) : Buffered σ (copyBuffer place d n σ) out := by
  unfold copyBuffer
  by_cases hp : d.aPointer = 0
  · rw [if_neg fun h => h.1 hp]
    exact strGet1Dx_buffered_null hd hp h
  · unfold strGet1Dx at h
    simp only [hd, hp, ne_eq, not_true_eq_false, not_false_eq_true, if_false, if_true, bind,
      Except.bind, pure, Except.pure, throw, throwThe, MonadExceptOf.throw] at h
    by_cases hsame : d.wLength = n
    · rw [if_pos hsame] at h
      cases h
      rw [if_pos ⟨hp, hsame⟩]
      exact ⟨rfl, hd, rfl, fun _ _ => rfl⟩
    · rw [if_neg hsame] at h
      rw [if_neg fun h => hsame h.2]
      by_cases hn : n = 0
      · rw [if_pos hn] at h ⊢
        cases hfree : free σ d.aPointer with
        | error fault =>
          rw [hfree] at h
          cases h
        | ok σ' =>
          rw [hfree] at h
          cases h
          exact ⟨rfl, rfl, rfl, fun a ha => absurd ha (Nat.not_lt_zero a)⟩
      · rw [if_neg hn] at h ⊢
        by_cases hplace : place σ n.toNat = 0
        · simp only [calloc, hplace, if_true] at h
          cases h
        · simp only [(calloc_eq hplace).1, if_neg hplace, free] at h
          split at h
          · cases h
          · next hfree =>
            split at hfree
            · cases hfree
              cases h
              refine ⟨rfl, rfl, rfl, fun a ha => ?_⟩
              exact (copyLoop_in_front _ _ _ _ ha).trans (calloc_in_front n.toNat a ha)
            · cases hfree

theorem strCopyR_buffered (hd : d.bClass = .d) {n : BitVec 16} {src : Nat} {out : Outcome}
    (h : strCopyR place d n src σ = .ok out) :
    Buffered σ (copyBuffer place d n σ) { out with status := strNormal } := by
  have hlength : src = 0 → (if src ≠ 0 then n.toNat else 0) = 0 := fun hsrc => by
    rw [if_neg (not_not_intro hsrc)]
  have hclass : isStringClass d = strNormal := by simp [isStringClass, hd]
  have hresize : strResize place d n σ = strGet1Dx place n d σ := by simp only [strResize, hd]
  simp only [strCopyR, hclass, ne_eq, not_true_eq_false, if_false, hresize] at h
  cases hget : strGet1Dx place n d σ with
  | error fault =>
    rw [hget] at h
    cases h
  | ok resized =>
    have hbuffered := strGet1Dx_buffered hd hget
    rw [hget, ok_bind] at h
    simp only [hbuffered.status, not_true_eq_false, if_false] at h
    cases hanalyzed : strAnalyzeSdesc resized.store.memory resized.destination with
    | error fault =>
      rw [hanalyzed] at h
      cases h
    | ok r =>
      obtain ⟨s1Length, s1⟩ := r
      have hs1 := strAnalyzeSdesc_address hanalyzed
      rw [hbuffered.dynamic, if_neg (by decide), hbuffered.address] at hs1
      rw [hanalyzed, ok_bind] at h
      cases h
      refine ⟨rfl, hbuffered.dynamic, hbuffered.address, fun a ha => ?_⟩
      rw [← hbuffered.memory a ha]
      show (strCopyFill resized.store.memory s1 s1Length.toNat src _ blank).2 a = _
      rw [strCopyFill_apply _ _ _ _ _ _ hlength, if_neg (by omega)]

/-! ## The quotation marks -/

/-- A text in a new block. -/
def withText (place : Store → Nat → Nat) (t : List Byte) (σ : Store) : Store :=
  ⟨fun a => if place σ t.length ≤ a ∧ a < place σ t.length + t.length then
      t.getD (a - place σ t.length) 0 else σ.memory a,
    ⟨place σ t.length, t.length⟩ :: σ.blocks⟩

theorem withText_apply (place : Store → Nat → Nat) (t : List Byte) (σ : Store) (a : Nat) :
    (withText place t σ).memory a =
      if place σ t.length ≤ a ∧ a < place σ t.length + t.length then
        t.getD (a - place σ t.length) 0 else σ.memory a := rfl

/-- A C string of the text `u` at `text`. -/
def Literal (static : Nat → Prop) (σ : Store) (own : List Nat) (text : Nat) (u : List Byte) : Prop :=
  Source static σ own ⟨BitVec.ofNat 16 u.length, .s, text⟩ text u

variable {own : List Nat} {text : Nat}

theorem strMallocSd_eq (ha : Allocates place static) (hu : Literal static σ own text u)
    (hne : u ≠ []) (hplace : place σ u.length ≠ 0) :
    strMallocSd place text (BitVec.ofNat 16 u.length) σ =
      .ok ⟨strNormal, ⟨BitVec.ofNat 16 u.length, .d, place σ u.length⟩, withText place u σ⟩ := by
  have htoNat := hu.toNat_length
  have htext : text ≠ 0 := fun h => hne (hu.null h)
  have hlength : ¬ BitVec.ofNat 16 u.length = 0 := fun h => hne ((ofNat_eq_zero_iff hu.fits).mp h)
  have hget : strGet1Dx place (BitVec.ofNat 16 u.length) nullString σ =
      .ok ⟨strNormal, ⟨BitVec.ofNat 16 u.length, .d, place σ u.length⟩,
        (calloc place σ u.length).2⟩ := by
    simp only [strGet1Dx, nullString, ne_eq, not_true_eq_false, if_false, if_neg hlength, htoNat,
      (calloc_eq hplace).1, if_neg hplace, bind, Except.bind, pure, Except.pure]
  have hkeep : ∀ σ' : Store, strResize place ⟨BitVec.ofNat 16 u.length, .d, place σ u.length⟩
      (BitVec.ofNat 16 u.length) σ' =
        .ok ⟨strNormal, ⟨BitVec.ofNat 16 u.length, .d, place σ u.length⟩, σ'⟩ := by
    intro σ'
    simp only [strResize, strGet1Dx, ne_eq, not_true_eq_false, if_false, hplace, not_false_eq_true,
      if_true, bind, Except.bind, pure, Except.pure]
  have hanalyzed : ∀ m, strAnalyzeSdesc m ⟨BitVec.ofNat 16 u.length, .d, place σ u.length⟩ =
      .ok (BitVec.ofNat 16 u.length, place σ u.length) := by
    intro m
    simp [strAnalyzeSdesc, isStringClass, hplace]
  have hmemory : (strCopyFill (calloc place σ u.length).2.memory (place σ u.length) u.length text
      u.length blank).2 = (withText place u σ).memory := by
    funext a
    rw [strCopyFill_apply _ _ _ _ _ _ fun h => absurd h htext, withText_apply]
    by_cases hin : place σ u.length ≤ a ∧ a < place σ u.length + u.length
    · have hi : a - place σ u.length < u.length := by omega
      have hkept := hu.kept_text (Nat.le_add_right _ (a - place σ u.length)) (by omega)
      rw [if_pos hin, if_pos hi, if_pos hin, calloc_old hplace (hkept.not_given ha hplace),
        (bytesAt_eq_iff.mp hu.bytes).2 _ hi, List.getD_eq_getElem?_getD,
        List.getElem?_eq_getElem hi]
      rfl
    · rw [if_neg hin, if_neg hin, calloc_old hplace hin]
  have hfill := Prod.ext (y := (strNormal, (withText place u σ).memory))
    (if_neg (Nat.lt_irrefl u.length)) hmemory
  have hclass : isStringClass ⟨BitVec.ofNat 16 u.length, .d, place σ u.length⟩ = strNormal := rfl
  rw [strMallocSd, hget, ok_bind]
  simp only [strCopyR, hclass, ne_eq, not_true_eq_false, if_false, hkeep, ok_bind, hanalyzed, htoNat,
    htext, not_false_eq_true, if_true, hfill]
  exact congrArg (fun blocks => Except.ok (Outcome.mk _ _ ⟨_, blocks⟩)) (calloc_eq hplace).2

/-- The string that is made of it. -/
theorem strMallocSd_dynamic (ha : Allocates place static) (hσ : Tidy static σ)
    (hu : Literal static σ [0] text u) :
    Gives place static σ 0 strNormal u (strMallocSd place text (BitVec.ofNat 16 u.length) σ) := by
  unfold strMallocSd
  apply Ends.bind (strGet1Dx_dynamic ha hσ (nullString_dynamic σ) _)
  rintro temp ⟨-, hleaves⟩
  have hcopy := strCopyR_part ha hleaves.tidy hleaves.dynamic (Source.frame hu hleaves.frame) (o := 0)
    (n := BitVec.ofNat 16 u.length) (Or.inr (by rw [hu.toNat_length]; omega))
  rw [List.drop_zero, hu.toNat_length, List.take_length] at hcopy
  exact hcopy.after hleaves

/-- `str$copy_dx` -/
theorem strCopyDx_dynamic (ha : Allocates place static) (hσ : Tidy static σ) (hd : Dynamic σ d t)
    (hs : Source static σ [d.aPointer] source p s) :
    Gives place static σ d.aPointer strNormal s (strCopyDx place d source σ) := by
  have hcopy := strCopyR_part ha hσ hd hs (o := 0) (n := BitVec.ofNat 16 s.length)
    (Or.inr (by rw [hs.toNat_length]; omega))
  rw [List.drop_zero, hs.toNat_length, List.take_length] at hcopy
  rw [strCopyDx, hs.analyzed, ok_bind]
  exact hcopy

end FreeVMS.Rtl.Str
