import FreeVMS.Lib.Occurrence
import FreeVMS.Rtl.StrCompare
import FreeVMS.Rtl.StrConcat
import FreeVMS.Rtl.StrSubstring

/-!
# The first of several substrings

`str$find_first_substring` takes its substrings one after the other, and looks for each of them from
the beginning of the source on. It returns with the first of them that is there, wherever it is.
-/

namespace FreeVMS.Rtl.Str

open Run (Ends)
open Lib.Occurrence

/-- What a call leaves: its status, `*index`, `*subindex` and the memory. -/
structure Found where
  status : Nat
  index : Nat
  subindex : Nat
  store : Store

/-- One round of the inner loop: as many characters as the substring has, from position `i` on, are
taken out of the source and compared. -/
def compareAt (place : Store → Nat → Nat) (s1 : Descriptor) (s2Len : BitVec 16) (sdPtr : Descriptor)
    (i : Nat) (σ : Store) : Except Fault (Int × Store) := do
  let tempSd ← strGet1Dx place s2Len nullString σ
  let temp2Sd ← strGet1Dx place s2Len nullString tempSd.store
  let tempSd ← strRight place tempSd.destination s1 (BitVec.ofNat 64 i) temp2Sd.store
  let temp2Sd ← strLeft place temp2Sd.destination tempSd.destination (s2Len.setWidth 64) tempSd.store
  let result ← strCompare temp2Sd.store.memory temp2Sd.destination sdPtr
  let tempSd ← strFree1Dx tempSd.destination temp2Sd.store
  let temp2Sd ← strFree1Dx temp2Sd.destination tempSd.store
  return (result, temp2Sd.store)

/-- The inner loop, over the positions of the source. -/
def findAt (place : Store → Nat → Nat) (s1 : Descriptor) (s2Len : BitVec 16) (sdPtr : Descriptor)
    (i : Nat) : Nat → Store → Except Fault (Option Nat × Store)
  | 0, σ => .ok (none, σ)
  | steps + 1, σ => do
    let (result, σ) ← compareAt place s1 s2Len sdPtr i σ
    if result = 0 then return (some i, σ)
    findAt place s1 s2Len sdPtr (i + 1) steps σ

/-- The outer loop, over the substrings. -/
def findEach (place : Store → Nat → Nat) (s1 : Descriptor) (s1Len : BitVec 16) (subindex : Nat) :
    List Descriptor → Store → Except Fault Found
  | [], σ => .ok ⟨0, 0, 0, σ⟩
  | sdPtr :: rest, σ => do
    let subindex := subindex + 1
    let (s2Len, _) ← strAnalyzeSdesc σ.memory sdPtr
    if s2Len ≤ s1Len ∧ s2Len ≠ 0 then
      let (found, σ) ← findAt place s1 s2Len sdPtr 1 (s1Len.toNat - s2Len.toNat + 1) σ
      if let some i := found then return ⟨1, i, subindex, σ⟩
      findEach place s1 s1Len subindex rest σ
    else findEach place s1 s1Len subindex rest σ

/-- `str$find_first_substring` -/
def strFindFirstSubstring (place : Store → Nat → Nat) (s1 sub : Descriptor) (rest : List Descriptor)
    (σ : Store) : Except Fault Found := do
  let (s1Len, _) ← strAnalyzeSdesc σ.memory s1
  let _ ← strAnalyzeSdesc σ.memory sub
  findEach place s1 s1Len 0 (sub :: rest) σ

variable {place : Store → Nat → Nat} {static : Nat → Prop} {σ : Store} {s1 sdPtr : Descriptor}
  {s u : List Byte} {p q : Nat}

/-! ## One substring -/

/-- What the inner routines leave of the heap. -/
def Restored (static : Nat → Prop) (σ σ' : Store) : Prop :=
  Tidy static σ' ∧ Frame static σ [0] σ' [0]

theorem Restored.trans {σ' σ'' : Store} (h : Restored static σ σ') (h' : Restored static σ' σ'') :
    Restored static σ σ'' :=
  ⟨h'.1, h.2.trans h'.2⟩

theorem toNat_setWidth {n : Nat} (hn : n < 65536) :
    ((BitVec.ofNat 16 n).setWidth 64).toInt = n := by
  rw [BitVec.toInt_eq_toNat_of_lt]
  · simp only [BitVec.toNat_setWidth, BitVec.toNat_ofNat]
    omega
  · simp only [BitVec.toNat_setWidth, BitVec.toNat_ofNat]
    omega

theorem toInt_ofNat {i : Nat} (hi : i < 2 ^ 63) : (BitVec.ofNat 64 i).toInt = i := by
  have htoNat : (BitVec.ofNat 64 i).toNat = i := by
    rw [BitVec.toNat_ofNat]
    omega
  rw [BitVec.toInt_eq_toNat_of_lt (by omega), htoNat]

/-- Two strings of the same length are equal when they differ in blanks at the end only. -/
theorem compared_eq_zero_iff_eq {a b : List Byte} (h : a.length = b.length) :
    compared a b = 0 ↔ a = b := by
  rw [compared_eq_zero_iff]
  constructor
  · rintro ⟨m, n, heq⟩
    exact (List.append_inj heq h).1
  · rintro rfl
    exact ⟨0, 0, rfl⟩

theorem compareAt_leaves (ha : Allocates place static) (hσ : Tidy static σ)
    (hs : Source static σ [0] s1 p s) (hu : Source static σ [0] sdPtr q u) {i : Nat} (hi : 1 ≤ i)
    (hfits : i + u.length ≤ s.length + 1) :
    Ends (OutOfMemory place) (fun r => (r.1 = 0 ↔ Occurs u s i) ∧ Restored static σ r.2)
      (compareAt place s1 (BitVec.ofNat 16 u.length) sdPtr i σ) := by
  have hslt := hs.fits
  have hposition : (BitVec.ofNat 64 i).toInt = i := toInt_ofNat (by omega)
  have hlength := toNat_setWidth hu.fits
  have hstart : Strings static σ [0] σ [(nullString, [])] :=
    Strings.start hσ (nullString_dynamic σ)
  unfold compareAt
  apply Ends.bind (strGet1Dx_dynamic ha hσ (nullString_dynamic σ) _)
  rintro temp ⟨-, htemp⟩
  have h1 := (hstart.call htemp).null
  apply Ends.bind (strGet1Dx_dynamic ha h1.tidy (nullString_dynamic temp.store) _)
  rintro temp2 ⟨-, htemp2⟩
  have h2 := (h1.call htemp2).perm (List.Perm.swap _ _ _)
  have hright := @strRight_leaves place static temp2.store temp.destination s1 s p
    ⟨ha, h2.tidy, ⟨_, h2.head⟩, h2.outside hs⟩ (BitVec.ofNat 64 i) (by omega)
  apply Ends.bind hright
  intro temp' htemp'
  have h3 := (h2.call htemp').perm (List.Perm.swap _ _ _)
  have hleft := @strLeft_leaves place static temp'.store temp2.destination temp'.destination _ _
    ⟨ha, h3.tidy, ⟨_, h3.head⟩, h3.second⟩ ((BitVec.ofNat 16 u.length).setWidth 64) (by omega)
  apply Ends.bind hleft
  intro temp2' htemp2'
  have h4 := h3.call htemp2'
  rw [hposition, hlength] at h4
  have hstart' : ((i : Int) - 1).toNat = i - 1 := by omega
  rw [hstart', Int.toNat_natCast] at h4
  have hwindow : ((s.drop (i - 1)).take u.length).length = u.length := by
    rw [List.length_take, List.length_drop]
    omega
  have hcompare := strCompare_eq h4.head.text (h4.outside hu).text
  rw [hcompare, ok_bind]
  have h4' := h4.perm (List.Perm.swap _ _ _)
  obtain ⟨freed, hfree, -, hfreed⟩ := strFree1Dx_dynamic h4'.tidy h4'.head
  have h5 := (h4'.call hfreed).perm (List.Perm.swap _ _ _)
  obtain ⟨freed', hfree', -, hfreed'⟩ := strFree1Dx_dynamic h5.tidy h5.head
  have h6 := h5.call hfreed'
  rw [hfree, ok_bind, hfree', ok_bind]
  refine .ok ⟨?_, h6.tidy, h6.forget.forget.null.frame⟩
  rw [compared_eq_zero_iff_eq hwindow, occurs_iff_take hi]

/-- The positions from `k` on are looked through up to the last one at which the substring fits in. -/
theorem findAt_leaves (ha : Allocates place static) (hσ : Tidy static σ)
    (hs : Source static σ [0] s1 p s) (hu : Source static σ [0] sdPtr q u) (hne : u ≠ [])
    {k steps : Nat} (hk : 1 ≤ k) (hsteps : k + steps + u.length = s.length + 2) :
    Ends (OutOfMemory place) (fun r => FirstFrom (Occurs u s) k (r.1.getD 0) ∧
        (∀ i, r.1 = some i → Occurs u s i) ∧ Restored static σ r.2)
      (findAt place s1 (BitVec.ofNat 16 u.length) sdPtr k steps σ) := by
  induction steps generalizing k σ with
  | zero =>
    have hnone : ∀ j, k ≤ j → ¬ Occurs u s j := by
      intro j hj hoccurs
      have hle := hoccurs.le hne
      omega
    refine .ok ⟨FirstFrom.none hnone, ?_, hσ, Frame.refl⟩
    rintro i ⟨⟩
  | succ steps ih =>
    rw [findAt]
    apply Ends.bind (compareAt_leaves ha hσ hs hu hk (by omega))
    rintro ⟨result, σ'⟩ ⟨hresult, hrestored⟩
    by_cases hzero : result = 0
    · have hoccurs := hresult.mp hzero
      simp only [if_pos hzero]
      refine .ok ⟨FirstFrom.here hoccurs, ?_, hrestored⟩
      rintro i ⟨⟩
      exact hoccurs
    · simp only [if_neg hzero]
      refine Ends.mono (ih hrestored.1 (hs.frame hrestored.2) (hu.frame hrestored.2) (by omega)
        (by omega)) ?_
      rintro r ⟨hfirst, hfound, hrest⟩
      exact ⟨hfirst.next fun hoccurs => hzero (hresult.mpr hoccurs), hfound, hrestored.trans hrest⟩

/-! ## The list of substrings -/

/-- Of a list of substrings, which starts with the ordinal `n + 1`, the first that is in `s` is there
first at `index`. -/
inductive Listed (s : List Byte) : Nat → List (List Byte) → Nat → Nat → Prop
  | none {n : Nat} : Listed s n [] 0 0
  | found {n index : Nat} {u : List Byte} {us : List (List Byte)} :
      IsLeast {p | Occurs u s p} index → Listed s n (u :: us) index (n + 1)
  | skip {n index subindex : Nat} {u : List Byte} {us : List (List Byte)} :
      (∀ p, ¬ Occurs u s p) → Listed s (n + 1) us index subindex →
        Listed s n (u :: us) index subindex

theorem isLeast_of_firstFrom {i : Nat} (hfirst : FirstFrom (Occurs u s) 1 i)
    (hoccurs : Occurs u s i) : IsLeast {p | Occurs u s p} i := by
  refine ⟨hoccurs, fun k hk => ?_⟩
  rcases hfirst with hleast | ⟨rfl, hnone⟩
  · exact hleast.2 ⟨hk.1, hk⟩
  · exact Nat.zero_le k

theorem findEach_leaves (ha : Allocates place static) (hσ : Tidy static σ)
    (hs : Source static σ [0] s1 p s) {items : List Descriptor} {us : List (List Byte)}
    (hitems : Sources static σ 0 items us) (hne : ∀ u ∈ us, u ≠ []) (n : Nat) :
    Ends (OutOfMemory place) (fun found => Listed s n us found.index found.subindex ∧
        found.status = (if found.index = 0 then 0 else 1) ∧ Restored static σ found.store)
      (findEach place s1 (BitVec.ofNat 16 s.length) n items σ) := by
  induction items generalizing us n σ with
  | nil =>
    cases hitems
    exact .ok ⟨.none, rfl, hσ, Frame.refl⟩
  | cons sdPtr items ih =>
    obtain ⟨u, us, ⟨q, hu⟩, hrest, rfl⟩ := List.forall₂_cons_left_iff.mp hitems
    have hnonempty := hne u List.mem_cons_self
    have hne' : ∀ u ∈ us, u ≠ [] := fun u hmem => hne u (List.mem_cons_of_mem _ hmem)
    have hpos := List.length_pos_iff.mpr hnonempty
    have hcheck : BitVec.ofNat 16 u.length ≤ BitVec.ofNat 16 s.length ∧
        BitVec.ofNat 16 u.length ≠ 0 ↔ u.length ≤ s.length := by
      rw [BitVec.le_def, hu.toNat_length, hs.toNat_length]
      constructor
      · exact fun h => h.1
      · refine fun h => ⟨h, fun hzero => ?_⟩
        have htoNat := congrArg BitVec.toNat hzero
        rw [hu.toNat_length] at htoNat
        exact hpos.ne' htoNat
    simp only [findEach, hu.analyzed, ok_bind, hcheck]
    split
    · next hle =>
      rw [hu.toNat_length, hs.toNat_length]
      apply Ends.bind (findAt_leaves ha hσ hs hu hnonempty (Nat.le_refl 1) (by omega))
      rintro ⟨found, σ'⟩ ⟨hfirst, hfound, hrestored⟩
      cases found with
      | some i =>
        have hoccurs := hfound i rfl
        have hi : ¬ i = 0 := fun hi => absurd hoccurs.1 (by omega)
        refine .ok ⟨.found (isLeast_of_firstFrom hfirst hoccurs), ?_, hrestored⟩
        exact (if_neg hi).symm
      | none =>
        have hnone : ∀ p, ¬ Occurs u s p := by
          rcases hfirst with hleast | ⟨-, hnone⟩
          · exact absurd hleast.1.1 (Nat.not_succ_le_zero 0)
          · exact fun p hoccurs => hnone p hoccurs.1 hoccurs
        have hsources : Sources static σ' 0 items us :=
          List.Forall₂.imp (fun item u ⟨q, hu⟩ => ⟨q, hu.frame hrestored.2⟩) hrest
        refine Ends.mono (ih hrestored.1 (hs.frame hrestored.2) hsources hne' (n + 1)) ?_
        rintro out ⟨hlisted, hstatus, hout⟩
        exact ⟨.skip hnone hlisted, hstatus, hrestored.trans hout⟩
    · next hlong =>
      refine Ends.mono (ih hσ hs hrest hne' (n + 1)) ?_
      rintro out ⟨hlisted, hstatus, hout⟩
      refine ⟨.skip (fun k hoccurs => ?_) hlisted, hstatus, hout⟩
      have hle := hoccurs.le hnonempty
      have hk := hoccurs.1
      omega

/-- A source that is `s`, and substrings that are those of the list. -/
structure FindWorld (place : Store → Nat → Nat) (static : Nat → Prop) (σ : Store) (s1 : Descriptor)
    (items : List Descriptor) (s : List Byte) (us : List (List Byte)) : Prop where
  allocates : Allocates place static
  tidy : Tidy static σ
  source : ∃ p, Source static σ [0] s1 p s
  substrings : Sources static σ 0 items us

theorem strFindFirstSubstring_leaves {sub : Descriptor} {rest : List Descriptor}
    {us : List (List Byte)} (hw : FindWorld place static σ s1 (sub :: rest) s us)
    (hne : ∀ u ∈ us, u ≠ []) :
    Ends (OutOfMemory place) (fun found => Listed s 0 us found.index found.subindex ∧
        found.status = (if found.index = 0 then 0 else 1) ∧ Restored static σ found.store)
      (strFindFirstSubstring place s1 sub rest σ) := by
  obtain ⟨p, hs⟩ := hw.source
  obtain ⟨u, us', ⟨q, hu⟩, -, -⟩ := List.forall₂_cons_left_iff.mp hw.substrings
  simp only [strFindFirstSubstring, hs.analyzed, hu.analyzed, ok_bind]
  exact findEach_leaves hw.allocates hw.tidy hs hw.substrings hne 0

/-! ## When the position is the leftmost -/

/-- What the position and the ordinal should be. -/
def Leftmost (s : List Byte) (us : List (List Byte)) (found : Found) : Prop :=
  FirstFrom (fun p => ∃ u ∈ us, Occurs u s p) 1 found.index ∧
    if found.index = 0 then found.subindex = 0 ∧ found.status = 0
    else 1 ≤ found.subindex ∧ ∃ u, us[found.subindex - 1]? = some u ∧ Occurs u s found.index

/-- In every world the call finds the leftmost position of a substring, and in whatever order the
substrings are given it finds the same one. -/
structure FindsFirst (s : List Byte) (us : List (List Byte)) : Prop where
  leftmost : ∀ place static σ s1 sub rest, FindWorld place static σ s1 (sub :: rest) s us →
    Ends (OutOfMemory place) (Leftmost s us) (strFindFirstSubstring place s1 sub rest σ)
  order : ∀ us', us'.Perm us → ∀ place static σ s1 sub rest place' static' σ' s1' sub' rest',
    FindWorld place static σ s1 (sub :: rest) s us →
      FindWorld place' static' σ' s1' (sub' :: rest') s us' →
        ∀ found found', strFindFirstSubstring place s1 sub rest σ = .ok found →
          strFindFirstSubstring place' s1' sub' rest' σ' = .ok found' → found.index = found'.index

/-- The substrings that are in the source are there first at the same position. -/
def SameFirst (s : List Byte) (us : List (List Byte)) : Prop :=
  ∀ u ∈ us, ∀ u' ∈ us, ∀ p p', IsLeast {p | Occurs u s p} p → IsLeast {p | Occurs u' s p} p' →
    p = p'

theorem exists_isLeast (h : Occurs u s p) : ∃ p', IsLeast {p | Occurs u s p} p' :=
  ⟨_, Nat.find_spec ⟨p, h⟩, fun _ hp => Nat.find_min' ⟨p, h⟩ hp⟩

section listed

variable {us : List (List Byte)} {n index subindex : Nat}

/-- The position is one of a substring of the list, which is first there. -/
theorem Listed.spec (h : Listed s n us index subindex) :
    (index = 0 ∧ subindex = 0 ∧ ∀ u ∈ us, ∀ p, ¬ Occurs u s p) ∨
      (n < subindex ∧ ∃ u, us[subindex - n - 1]? = some u ∧ IsLeast {p | Occurs u s p} index) := by
  induction h with
  | none => exact Or.inl ⟨rfl, rfl, fun u hmem => nomatch hmem⟩
  | @found n index u us hleast =>
    refine Or.inr ⟨Nat.lt_succ_self n, u, ?_, hleast⟩
    have hzero : n + 1 - n - 1 = 0 := by omega
    rw [hzero]
    rfl
  | @skip n index subindex u us hnone _ ih =>
    rcases ih with ⟨hindex, hsubindex, hrest⟩ | ⟨hlt, v, hv, hleast⟩
    · refine Or.inl ⟨hindex, hsubindex, fun v hmem => ?_⟩
      rcases List.mem_cons.mp hmem with rfl | hmem
      · exact hnone
      · exact hrest v hmem
    · refine Or.inr ⟨Nat.lt_of_succ_lt hlt, v, ?_, hleast⟩
      have hsucc : subindex - n - 1 = subindex - (n + 1) - 1 + 1 := by omega
      rw [hsucc, List.getElem?_cons_succ]
      exact hv

theorem Listed.leftmost (h : Listed s 0 us index subindex) (hsame : SameFirst s us) :
    FirstFrom (fun p => ∃ u ∈ us, Occurs u s p) 1 index := by
  rcases h.spec with ⟨rfl, -, hnone⟩ | ⟨-, u, hu, hleast⟩
  · exact FirstFrom.none fun p _ ⟨u, hmem, hoccurs⟩ => hnone u hmem p hoccurs
  · have hmem := List.mem_of_getElem? hu
    refine Or.inl ⟨⟨hleast.1.1, u, hmem, hleast.1⟩, ?_⟩
    rintro p ⟨-, v, hv, hoccurs⟩
    obtain ⟨p', hleast'⟩ := exists_isLeast hoccurs
    rw [hsame u hmem v hv index p' hleast hleast']
    exact hleast'.2 hoccurs

/-- A substring at the head of the list decides. -/
theorem Listed.head (h : Listed s n (u :: us) index subindex) (hleast : IsLeast {p | Occurs u s p} p) :
    index = p := by
  cases h with
  | found hleast' => exact hleast'.unique hleast
  | skip hnone _ => exact absurd hleast.1 (hnone p)

end listed

theorem SameFirst.perm {us us' : List (List Byte)} (h : SameFirst s us) (hperm : us'.Perm us) :
    SameFirst s us' :=
  fun u hu u' hu' => h u (hperm.mem_iff.mp hu) u' (hperm.mem_iff.mp hu')

theorem findsFirst_of_sameFirst {us : List (List Byte)} (hne : ∀ u ∈ us, u ≠ [])
    (h : SameFirst s us) : FindsFirst s us := by
  constructor
  · intro place static σ s1 sub rest hw
    refine Ends.mono (strFindFirstSubstring_leaves hw hne) ?_
    rintro found ⟨hlisted, hstatus, -⟩
    refine ⟨hlisted.leftmost h, ?_⟩
    rcases hlisted.spec with ⟨hindex, hsubindex, -⟩ | ⟨hlt, u, hu, hleast⟩
    · rw [if_pos hindex]
      rw [if_pos hindex] at hstatus
      exact ⟨hsubindex, hstatus⟩
    · have hone := hleast.1.1
      rw [if_neg (by omega)]
      exact ⟨hlt, u, hu, hleast.1⟩
  · intro us' hperm place static σ s1 sub rest place' static' σ' s1' sub' rest' hw hw' found found'
      hcall hcall'
    have hends := strFindFirstSubstring_leaves hw hne
    have hends' := strFindFirstSubstring_leaves hw' fun u hu => hne u (hperm.mem_iff.mp hu)
    rw [hcall] at hends
    rw [hcall'] at hends'
    cases hends with
    | ok hfound =>
      cases hends' with
      | ok hfound' =>
        have hleftmost := hfound'.1.leftmost (h.perm hperm)
        simp only [hperm.mem_iff] at hleftmost
        exact (hfound.1.leftmost h).unique hleftmost

/-! ## Strings behind each other -/

/-- Descriptors of strings that are behind each other from `p` on. -/
def itemsFrom (p : Nat) : List (List Byte) → List Descriptor
  | [] => []
  | u :: us => ⟨BitVec.ofNat 16 u.length, .s, p⟩ :: itemsFrom (p + u.length) us

theorem itemsFrom_sources {w : List Byte} {base : Nat} (hbase : w.length < base) {front : List Byte}
    {us : List (List Byte)} (hw : w = front ++ us.flatten) (hlt : ∀ u ∈ us, u.length < 65536) :
    Sources (· < base) (textStore w 0) 0 (itemsFrom (1 + front.length) us) us := by
  induction us generalizing front with
  | nil => exact .nil
  | cons u us ih =>
    have hlength : w.length = front.length + (u.length + us.flatten.length) := by
      rw [hw, List.length_append, List.flatten_cons, List.length_append]
    constructor
    · refine ⟨_, Source.of_static (by omega) (hlt u List.mem_cons_self) ?_ fun a _ ha => ?_⟩
      · rw [bytesAt_part (textStore_bytes w 0) (Or.inr (by omega)), hw, List.drop_left,
          List.flatten_cons, List.take_left]
      · show a < base
        omega
    · have hrest := @ih (front ++ u) (by rw [hw, List.flatten_cons, List.append_assoc])
        fun u hu => hlt u (List.mem_cons_of_mem _ hu)
      rw [List.length_append, ← Nat.add_assoc] at hrest
      exact hrest

theorem itemsWorld {us : List (List Byte)} (hs : s.length < 65536)
    (hlt : ∀ u ∈ us, u.length < 65536) :
    FindWorld (above (s.length + us.flatten.length + 2))
      (· < s.length + us.flatten.length + 2) (textStore (s ++ us.flatten) 0)
      ⟨BitVec.ofNat 16 s.length, .s, 1⟩ (itemsFrom (1 + s.length) us) s us := by
  constructor
  · exact above_allocates _
  · exact textStore_tidy _ _
  · refine ⟨1, Source.of_static (by decide) hs ?_ fun a _ ha => ?_⟩
    · have hpart := bytesAt_part (o := 0) (k := s.length) (textStore_bytes (s ++ us.flatten) 0)
        (Or.inr (by rw [List.length_append]; omega))
      rwa [List.drop_zero, List.take_left, Nat.add_zero] at hpart
    · show a < s.length + us.flatten.length + 2
      omega
  · exact itemsFrom_sources (by rw [List.length_append]; omega) rfl hlt

/-- There is a world for each list. -/
theorem exists_found {us : List (List Byte)} (hs : s.length < 65536)
    (hlt : ∀ u ∈ us, u.length < 65536) (hne : ∀ u ∈ us, u ≠ []) (hus : us ≠ []) :
    ∃ place static σ s1 sub rest found, FindWorld place static σ s1 (sub :: rest) s us ∧
      strFindFirstSubstring place s1 sub rest σ = .ok found ∧
      Listed s 0 us found.index found.subindex := by
  have hw := itemsWorld hs hlt
  cases us with
  | nil => exact absurd rfl hus
  | cons u us =>
    obtain ⟨found, hcall, hlisted, -⟩ := returns_of_space (strFindFirstSubstring_leaves hw hne)
      fun σ n _ => above_ne_zero (by omega) σ n
    exact ⟨_, _, _, _, _, _, found, hw, hcall, hlisted⟩

theorem sameFirst_of_findsFirst {us : List (List Byte)} (hs : s.length < 65536)
    (hlt : ∀ u ∈ us, u.length < 65536) (hne : ∀ u ∈ us, u ≠ []) (h : FindsFirst s us) :
    SameFirst s us := by
  intro u hu u' hu' p p' hleast hleast'
  obtain ⟨_, _, _, _, _, _, found, hw, hcall, -⟩ := exists_found hs hlt hne (List.ne_nil_of_mem hu)
  -- each of the two substrings decides where it is the first of the list
  have hfirst : ∀ v ∈ us, ∀ k, IsLeast {p | Occurs v s p} k → found.index = k := by
    intro v hv k hk
    have hperm : (v :: us.erase v).Perm us := (List.perm_cons_erase hv).symm
    obtain ⟨_, _, _, _, _, _, found', hw', hcall', hlisted'⟩ := @exists_found s (v :: us.erase v) hs
      (fun w hw => hlt w (hperm.mem_iff.mp hw)) (fun w hw => hne w (hperm.mem_iff.mp hw))
      (List.cons_ne_nil _ _)
    rw [h.order _ hperm _ _ _ _ _ _ _ _ _ _ _ _ hw hw' found found' hcall hcall']
    exact hlisted'.head hk
  rw [← hfirst u hu p hleast, ← hfirst u' hu' p' hleast']

/-- **The first of several substrings.** The call finds the leftmost position, whatever the order of
the substrings, exactly when all the substrings that are in the source are there first at the same
position. -/
theorem finds_first_iff (s : List Byte) (hs : s.length < 65536) (us : List (List Byte))
    (hlt : ∀ u ∈ us, u.length < 65536) (hne : ∀ u ∈ us, u ≠ []) :
    FindsFirst s us ↔ SameFirst s us :=
  ⟨sameFirst_of_findsFirst hs hlt hne, findsFirst_of_sameFirst hne⟩

theorem finds_first_iff_abc :
    FindsFirst [65, 66, 67] [[66, 67], [66]] ↔ SameFirst [65, 66, 67] [[66, 67], [66]] :=
  finds_first_iff [65, 66, 67] (by decide) [[66, 67], [66]] (by decide) (by decide)

/-- Of `C` and `A` in `ABC` the first that is given is found. -/
theorem first_given_found : ¬ FindsFirst [65, 66, 67] [[67], [65]] := by
  intro h
  have hsame := sameFirst_of_findsFirst (by decide) (by decide) (by decide) h [67] (by decide) [65]
    (by decide) 3 1 ⟨by decide, fun p hp => ?_⟩ ⟨by decide, fun p hp => hp.1⟩
  · exact absurd hsame (by decide)
  · by_contra hlt
    have hp' : p = 1 ∨ p = 2 := by
      have hone := hp.1
      omega
    rcases hp' with rfl | rfl
    · exact absurd hp (by decide)
    · exact absurd hp (by decide)

end FreeVMS.Rtl.Str
