import FreeVMS.Rtl.StrDynamic
import Mathlib.Data.List.Forall2

/-!
# Concatenation

`str$concat` frees its destination and appends the sources, up to the first that does not fit.
`str$prefix` has a loop of its own: it puts both strings into a work buffer, the destination in front
of the source, and the length of the buffer is an `unsigned short`.
-/

namespace FreeVMS.Rtl.Str

open Run (Ends)

variable {place : Store → Nat → Nat} {static : Nat → Prop} {σ : Store} {d source : Descriptor}
  {s t : List Byte} {p q : Nat}

/-! ## `str$concat` -/

/-- The loop ends at a status that is not success. -/
theorem appendAll_stop (items : List Descriptor) {out : Outcome} (h : out.status ≠ strNormal) :
    appendAll place items out = .ok out := by
  cases items with
  | nil => rfl
  | cons item items =>
    rw [appendAll, if_neg h]
    rfl

/-- The strings that a list of descriptors stands for. -/
def Sources (static : Nat → Prop) (σ : Store) (q : Nat) (items : List Descriptor)
    (texts : List (List Byte)) : Prop :=
  List.Forall₂ (fun item t => ∃ p, Source static σ [q] item p t) items texts

theorem Sources.frame {items : List Descriptor} {texts : List (List Byte)} {out : Outcome}
    (h : Sources static σ q items texts) (hleaves : Leaves static σ q s out) :
    Sources static out.store out.destination.aPointer items texts := by
  apply h.imp
  rintro item t ⟨p, hs⟩
  exact ⟨p, hs.frame hleaves.frame⟩

/-- The loop, from a string `s` into which everything so far has gone. -/
theorem appendAll_dynamic (ha : Allocates place static) {items : List Descriptor}
    {texts : List (List Byte)} {out : Outcome}
    (hitems : Sources static out.store out.destination.aPointer items texts)
    (hstatus : out.status = strNormal) (hleaves : Leaves static σ q s out) :
    Gives place static σ q
      (if 65535 < s.length + texts.flatten.length then strTru else strNormal)
      ((s ++ texts.flatten).take 65535) (appendAll place items out) := by
  have hlt := hleaves.dynamic.lt
  induction items generalizing texts out s with
  | nil =>
    cases hitems
    simp only [List.flatten_nil, List.append_nil, List.length_nil, Nat.add_zero]
    rw [if_neg (by omega), List.take_of_length_le (by omega)]
    exact .ok ⟨hstatus, hleaves⟩
  | cons item items ih =>
    obtain ⟨t, texts, hitem, hrest, rfl⟩ := List.forall₂_cons_left_iff.mp hitems
    obtain ⟨p, hs⟩ := hitem
    rw [appendAll, if_pos hstatus, List.flatten_cons, List.length_append, ← Nat.add_assoc,
      ← List.append_assoc, ← List.length_append]
    apply Ends.bind (strAppend_dynamic ha hleaves.tidy hleaves.dynamic hs)
    rintro out' ⟨hstatus', hleaves'⟩
    by_cases hlong : 65535 < (s ++ t).length
    · -- the first source that does not fit is the last one
      rw [List.length_append] at hlong
      rw [if_pos hlong] at hstatus'
      rw [appendAll_stop items (by rw [hstatus']; decide), List.length_append,
        if_pos (by omega), List.take_append_of_le_length (by rw [List.length_append]; omega)]
      exact .ok ⟨hstatus', hleaves.trans hleaves'⟩
    · rw [List.take_of_length_le (by omega)] at hleaves'
      rw [List.length_append] at hlong
      rw [if_neg hlong] at hstatus'
      exact ih (Sources.frame hrest hleaves') hstatus' (hleaves.trans hleaves')
        hleaves'.dynamic.lt

/-- **Concatenation.** Where there is space `str$concat` leaves what its sources are together, cut
to 65535 bytes, and says so exactly when there was more. -/
theorem concat_leaves (ha : Allocates place static) (hspace : ∀ σ n, 0 < n → place σ n ≠ 0)
    (hσ : Tidy static σ) (hd : Dynamic σ d s) (items : List Descriptor)
    (texts : List (List Byte)) (hitems : Sources static σ d.aPointer items texts) :
    ∃ out, strConcat place d items σ = .ok out ∧
      out.status = (if 65535 < texts.flatten.length then strTru else strNormal) ∧
      Leaves static σ d.aPointer (texts.flatten.take 65535) out := by
  obtain ⟨freed, hfree, hstatus, hleaves⟩ := strFree1Dx_dynamic hσ hd
  have hloop := appendAll_dynamic ha (hitems.frame hleaves) hstatus hleaves
  rw [List.nil_append, List.length_nil, Nat.zero_add] at hloop
  rw [strConcat, hfree, ok_bind]
  exact hloop.returns hspace

theorem concat_leaves_sample :
    ∃ out, strConcat (above 10000) sampleString [⟨3, .s, 2000⟩, ⟨1, .s, 2000⟩] sample = .ok out ∧
      out.status = strNormal ∧ Leaves (· < 10000) sample 10000 [65, 66, 67, 65] out :=
  concat_leaves (above_allocates 10000) (fun σ n _ => above_ne_zero (by decide) σ n) sample_tidy
    sample_dynamic [⟨3, .s, 2000⟩, ⟨1, .s, 2000⟩] [[65, 66, 67], [65]]
    (.cons ⟨2000, sample_source (by decide : 3 ≤ 1000) _⟩
      (.cons ⟨2000, sample_source (by decide : 1 ≤ 1000) _⟩ .nil))

/-! ## `str$prefix` -/

/-- Unlike `calloc`, `malloc` does not clear what it gives out. -/
def malloc (place : Store → Nat → Nat) (σ : Store) (n : Nat) : Nat × Store :=
  let p := place σ n
  if p = 0 then (0, σ) else (p, { σ with blocks := ⟨p, n⟩ :: σ.blocks })

/-- `str$prefix` -/
def strPrefix (place : Store → Nat → Nat) (d source : Descriptor) (σ : Store) :
    Except Fault Outcome := do
  if d.bClass ≠ .d then throw (.signal strIllstrcla)
  let (s1Length, s1) ← strAnalyzeSdesc σ.memory d
  let (s2Length, s2) ← strAnalyzeSdesc σ.memory source
  let finalLength := s1Length + s2Length
  let (work, σ) := malloc place σ finalLength.toNat
  if work = 0 then return ⟨strInsvirmem, d, σ⟩
  let memory := memcpy σ.memory work s1 s1Length.toNat
  let memory := memcpy memory (work + s1Length.toNat) s2 s2Length.toNat
  let result ← strCopyR place d finalLength work { σ with memory := memory }
  let σ ← free result.store work
  return { result with store := σ }

/-- The store of `str$prefix` when the work buffer is filled. -/
def workStore (place : Store → Nat → Nat) (σ : Store) (n s1 s1Length s2 s2Length : Nat) : Store :=
  ⟨memcpy (memcpy σ.memory (place σ n) s1 s1Length) (place σ n + s1Length) s2 s2Length,
    ⟨place σ n, n⟩ :: σ.blocks⟩

theorem strPrefix_eq (hd : Dynamic σ d s) (hs : Source static σ [d.aPointer] source p t)
    {n : BitVec 16} (hn : n = BitVec.ofNat 16 (s.length + t.length)) (hplace : place σ n.toNat ≠ 0) :
    strPrefix place d source σ =
      (strCopyR place d n (place σ n.toNat)
        (workStore place σ n.toNat d.aPointer s.length p t.length) >>= fun result =>
          free result.store (place σ n.toNat) >>= fun σ => pure { result with store := σ }) := by
  have hclass : ¬ d.bClass ≠ .d := not_not_intro hd.dynamic
  have hsum : d.wLength + BitVec.ofNat 16 t.length = n := by
    rw [hd.wLength_eq, hn, BitVec.ofNat_add]
  simp only [strPrefix, if_neg hclass, hd.analyzed, hs.analyzed, ok_bind, hsum, malloc,
    if_neg hplace, hs.toNat_length, hd.length]
  rfl

/-- The work buffer is filled with the destination and, behind it, the source. -/
theorem workStore_bytes (ha : Allocates place static) (hd : Dynamic σ d s)
    (hs : Source static σ [d.aPointer] source p t) {n : Nat} (hn : s.length + t.length = n)
    (hplace : place σ n ≠ 0) :
    bytesAt (workStore place σ n d.aPointer s.length p t.length).memory (place σ n) n = s ++ t := by
  have hapart : ∀ i, i < t.length → ¬ Block.Holds ⟨place σ n, n⟩ (p + i) := fun i hi =>
    (hs.kept_text (Nat.le_add_right _ _) (Nat.add_lt_add_left hi _)).not_given ha hplace
  refine bytesAt_eq_iff.mpr ⟨(List.length_append).trans hn, fun i hi => ?_⟩
  have hlength : i < s.length + t.length := by simpa using hi
  simp only [workStore, memcpy]
  by_cases hfront : i < s.length
  · rw [if_neg (by omega), if_pos (by omega), Nat.add_sub_cancel_left,
      List.getElem_append_left hfront]
    exact (bytesAt_eq_iff.mp hd.bytes).2 i hfront
  · have hit : i - s.length < t.length := by omega
    have hrest : place σ n + i - (place σ n + s.length) = i - s.length := by omega
    rw [if_pos (by omega), hrest, if_neg, List.getElem_append_right (by omega)]
    · exact (bytesAt_eq_iff.mp hs.bytes).2 _ hit
    · rintro ⟨h1, h2⟩
      apply hapart _ hit
      exact ⟨h1, by
        show p + (i - s.length) < place σ n + n
        omega⟩

/-- As long as the buffer is large enough nothing else is written. -/
theorem workStore_frame (ha : Allocates place static) (hσ : Tidy static σ) {n s1 s2 : Nat}
    (hn : s.length + t.length = n) (hplace : place σ n ≠ 0) :
    Tidy static (workStore place σ n s1 s.length s2 t.length) ∧
      Frame static σ [0] (workStore place σ n s1 s.length s2 t.length) [place σ n] := by
  refine ⟨hσ.cons ha hplace _, ?_, ?_⟩
  · intro b hb _
    exact ⟨List.mem_cons_of_mem _ hb, by simpa using (ha.apart σ n hplace b hb).address.symm⟩
  · intro a hkept
    have hnot : ¬ (place σ n ≤ a ∧ a < place σ n + n) := hkept.not_given ha hplace
    simp only [workStore, memcpy]
    rw [if_neg (by omega), if_neg (by omega)]

/-- The end of `str$prefix`: the filled buffer is copied into the destination and given back. -/
theorem prefixEnd_leaves (ha : Allocates place static) {σ' : Store} (hσ' : Tidy static σ')
    (hd : Dynamic σ' d s) {w : Nat} {n : BitVec 16} (hw : w ≠ 0) (hne : Distinct d.aPointer w)
    (hmem : ⟨w, n.toNat⟩ ∈ σ'.blocks) :
    Ends (OutOfMemory place) (fun out => out.status = strNormal ∧
        Dynamic out.store out.destination (bytesAt σ'.memory w n.toNat) ∧
        (Tidy static σ → Frame static σ [0] σ' [w] →
          Leaves static σ d.aPointer (bytesAt σ'.memory w n.toNat) out))
      (strCopyR place d n w σ' >>= fun result =>
        free result.store w >>= fun σ => pure { result with store := σ }) := by
  have hown : w ∉ [d.aPointer] := by
    rw [List.mem_singleton]
    unfold Distinct at hne
    omega
  apply Ends.bind (strCopyR_dynamic ha hσ' hd (p := w) (n := n) (fun h => absurd h hw)
    fun i hi => Or.inr ⟨⟨w, n.toNat⟩, hmem, hown, @Block.holds_add ⟨w, n.toNat⟩ i hi⟩)
  rintro out ⟨hstatus, hleaves⟩
  obtain ⟨hlive, hnot⟩ := hleaves.frame.blocks ⟨w, n.toNat⟩ hmem hown
  have hdistinct : Distinct out.destination.aPointer w :=
    Or.inr fun h => hnot (List.mem_singleton.mpr h.symm)
  have hfreed := @leaves_freed static out.store ⟨0, .d, 0⟩ hleaves.tidy rfl w strNormal
  rw [free_eq hlive, ok_bind]
  exact .ok ⟨hstatus, (hleaves.dynamic.frame hdistinct hfreed.frame).1,
    fun hσ hframe => hleaves.release hσ hframe hdistinct hfreed _⟩

section prefixed

variable (ha : Allocates place static) (hσ : Tidy static σ) (hd : Dynamic σ d s)
  (hs : Source static σ [d.aPointer] source p t)
include ha hσ hd hs

/-- A call of `str$prefix` whose work buffer is as long as both strings together. -/
theorem strPrefix_dynamic (hshort : s.length + t.length ≤ 65535)
    (hplace : place σ (s.length + t.length) ≠ 0) :
    Gives place static σ d.aPointer strNormal (s ++ t) (strPrefix place d source σ) := by
  have hn : s.length + t.length = (BitVec.ofNat 16 (s.length + t.length)).toNat := by
    rw [BitVec.toNat_ofNat, Nat.mod_eq_of_lt (by omega)]
  rw [hn] at hplace
  rw [strPrefix_eq hd hs rfl hplace]
  generalize BitVec.ofNat 16 (s.length + t.length) = n at hn hplace ⊢
  obtain ⟨htidy, hframe⟩ := @workStore_frame place static σ s t ha hσ _ d.aPointer p hn hplace
  obtain ⟨hd', hw⟩ := hd.frame (q := 0) (by unfold Distinct; omega) hframe
  have hend := prefixEnd_leaves (σ := σ) ha htidy hd' hplace hw List.mem_cons_self
  rw [workStore_bytes ha hd hs hn hplace] at hend
  exact hend.mono fun out hout => ⟨hout.1, hout.2.2 hσ hframe⟩

/-- In any case the destination gets the length of the work buffer. -/
theorem strPrefix_length (hplace : place σ ((s.length + t.length) % 65536) ≠ 0) :
    Ends (OutOfMemory place)
      (fun out => ∃ u, Dynamic out.store out.destination u ∧
        u.length = (s.length + t.length) % 65536)
      (strPrefix place d source σ) := by
  have hn : (s.length + t.length) % 65536 = (BitVec.ofNat 16 (s.length + t.length)).toNat := by
    rw [BitVec.toNat_ofNat]
  rw [hn] at hplace
  rw [strPrefix_eq hd hs rfl hplace, hn]
  generalize BitVec.ofNat 16 (s.length + t.length) = n at hplace ⊢
  -- the buffer may be too short for what is put there, but its block is what was asked for
  have hw : Distinct d.aPointer (place σ n.toNat) := by
    rcases hd.owned with ⟨hp, -⟩ | ⟨-, size, hb, -⟩
    · exact Or.inl hp
    · exact Or.inr (ha.apart σ n.toNat hplace _ hb).address.symm
  have hd' : Dynamic (workStore place σ n.toNat d.aPointer s.length p t.length) d
      (bytesAt (workStore place σ n.toNat d.aPointer s.length p t.length).memory d.aPointer
        s.length) := by
    refine ⟨hd.dynamic, by rw [hd.length, length_bytesAt], by rw [length_bytesAt], ?_⟩
    rcases hd.owned with ⟨hp, rfl⟩ | ⟨hp, size, hb, hsize⟩
    · exact Or.inl ⟨hp, rfl⟩
    · exact Or.inr ⟨hp, size, List.mem_cons_of_mem _ hb, by rwa [length_bytesAt]⟩
  have hend := prefixEnd_leaves (σ := σ) ha (hσ.cons ha hplace _) hd' hplace hw
    List.mem_cons_self
  exact hend.mono fun out hout => ⟨_, hout.2.1, length_bytesAt _ _ _⟩

end prefixed

/-- `str$prefix` leaves `u` and gives the status of `str$append`, which appends the destination to
a dynamic copy of the source and leaves `u` too. -/
def AgreesWithAppend (place : Store → Nat → Nat) (static : Nat → Prop) (σ : Store)
    (d source : Descriptor) (σ' : Store) (copy : Descriptor) (u : List Byte) : Prop :=
  ∃ out out', strPrefix place d source σ = .ok out ∧ strAppend place copy d σ' = .ok out' ∧
    out.status = out'.status ∧ Leaves static σ d.aPointer u out ∧
    Leaves static σ' copy.aPointer u out'

section agrees

variable (ha : Allocates place static) (hspace : ∀ σ n, place σ n ≠ 0) (hσ : Tidy static σ)
  (hd : Dynamic σ d s) (hs : Source static σ [d.aPointer] source p t)
include ha hspace hσ hd hs

theorem commute_of_agrees {σ' : Store} {copy : Descriptor}
    (h : AgreesWithAppend place static σ d source σ' copy ((t ++ s).take 65535)) :
    s.length + t.length ≤ 65535 ∧ s ++ t = t ++ s := by
  obtain ⟨out, out', hcall, -, -, hleaves, -⟩ := h
  have hlength := strPrefix_length ha hσ hd hs (hspace _ _)
  rw [hcall] at hlength
  cases hlength with
  | ok hout =>
    obtain ⟨u, hu, hu'⟩ := hout
    have heq := hleaves.dynamic.unique hu
    have hshort : s.length + t.length ≤ 65535 := by
      have hlt := hd.lt
      have hlt' := hs.fits
      rw [← heq, List.length_take, List.length_append] at hu'
      omega
    refine ⟨hshort, ?_⟩
    obtain ⟨out'', hcall', -, hleaves'⟩ := (strPrefix_dynamic ha hσ hd hs hshort
      (hspace _ _)).returns fun σ n _ => hspace σ n
    rw [hcall] at hcall'
    cases hcall'
    rw [List.take_of_length_le (by rw [List.length_append]; omega)] at hleaves
    exact hleaves'.dynamic.unique hleaves.dynamic

theorem agrees_of_commute {σ' : Store} {copy : Descriptor} (hσ' : Tidy static σ')
    (hcopy : Dynamic σ' copy t) {p' : Nat} (hd' : Source static σ' [copy.aPointer] d p' s)
    (hshort : s.length + t.length ≤ 65535) (hcommute : s ++ t = t ++ s) :
    AgreesWithAppend place static σ d source σ' copy ((t ++ s).take 65535) := by
  have hspace' : ∀ σ n, 0 < n → place σ n ≠ 0 := fun σ n _ => hspace σ n
  obtain ⟨out, hcall, hstatus, hleaves⟩ := (strPrefix_dynamic ha hσ hd hs hshort
    (hspace _ _)).returns hspace'
  obtain ⟨out', hcall', hstatus', hleaves'⟩ := (strAppend_dynamic ha hσ' hcopy hd').returns hspace'
  rw [if_neg (by omega)] at hstatus'
  rw [hcommute, ← List.take_of_length_le (by rw [List.length_append]; omega :
    (t ++ s).length ≤ 65535)] at hleaves
  exact ⟨out, out', hcall, hcall', hstatus.trans hstatus'.symm, hleaves, hleaves'⟩

end agrees

/-- **Prefix and append.** `str$prefix` agrees with `str$append` exactly when the two strings fit
into one and it does not matter which of them comes first. -/
theorem prefix_agrees_iff (ha : Allocates place static) (hspace : ∀ σ n, place σ n ≠ 0)
    (hσ : Tidy static σ) (hd : Dynamic σ d s) (hs : Source static σ [d.aPointer] source p t)
    {σ' : Store} {copy : Descriptor} (hσ' : Tidy static σ') (hcopy : Dynamic σ' copy t) {p' : Nat}
    (hd' : Source static σ' [copy.aPointer] d p' s) :
    AgreesWithAppend place static σ d source σ' copy ((t ++ s).take 65535) ↔
      s.length + t.length ≤ 65535 ∧ s ++ t = t ++ s := by
  constructor
  · exact commute_of_agrees ha hspace hσ hd hs
  · rintro ⟨hshort, hcommute⟩
    exact agrees_of_commute ha hspace hσ hd hs hσ' hcopy hd' hshort hcommute

/-- The string of `sample` and a copy of the first `n` bytes at 2000. -/
def sampleCopy (n : Nat) : Store := ⟨sample.memory, [⟨10000, 2⟩, ⟨11000, n⟩]⟩

theorem sampleCopy_tidy (n : Nat) : Tidy (· < 10000) (sampleCopy n) := by
  have hapart : Block.Apart ⟨10000, 2⟩ ⟨11000, n⟩ := by
    refine ⟨by simp, fun a ha ha' => ?_⟩
    have hlt : a < 10000 + 2 := ha.2
    have hle : 11000 ≤ a := ha'.1
    omega
  constructor
  · simp [sampleCopy]
  · intro b hb b' hb'
    simp only [sampleCopy, List.mem_cons, List.not_mem_nil, or_false] at hb hb'
    rcases hb with rfl | rfl <;> rcases hb' with rfl | rfl
    · exact Or.inl rfl
    · exact Or.inr hapart
    · exact Or.inr hapart.symm
    · exact Or.inl rfl
  · intro b hb a ha hstatic
    simp only [sampleCopy, List.mem_cons, List.not_mem_nil, or_false] at hb
    have hlt : a < 10000 := hstatic
    rcases hb with rfl | rfl
    · have hle : 10000 ≤ a := ha.1
      omega
    · have hle : 11000 ≤ a := ha.1
      omega

theorem sampleCopy_string (n : Nat) : Dynamic (sampleCopy n) sampleString [65, 66] :=
  ⟨rfl, rfl, rfl, Or.inr ⟨by decide, 2, List.mem_cons_self, Nat.le_refl _⟩⟩

theorem prefix_agrees_iff_sample :
    AgreesWithAppend (above 10000) (· < 10000) sample sampleString ⟨2, .s, 2000⟩ (sampleCopy 2)
        ⟨2, .d, 11000⟩ (([65, 66] ++ [65, 66] : List Byte).take 65535) ↔
      2 + 2 ≤ 65535 ∧ ([65, 66] ++ [65, 66] : List Byte) = [65, 66] ++ [65, 66] :=
  prefix_agrees_iff (above_allocates 10000) (above_ne_zero (by decide)) sample_tidy sample_dynamic
    (sample_source (by decide : 2 ≤ 1000) _) (sampleCopy_tidy 2)
    ⟨rfl, rfl, rfl, Or.inr ⟨by decide, 2, by simp [sampleCopy], Nat.le_refl _⟩⟩
    ((sampleCopy_string 2).to_source (Or.inr (by decide)))

/-- `A` in front of `AB` is not `ABA`. -/
theorem prefix_turns_round :
    ¬ AgreesWithAppend (above 10000) (· < 10000) sample sampleString ⟨1, .s, 2000⟩ (sampleCopy 1)
        ⟨1, .d, 11000⟩ (([65] ++ [65, 66] : List Byte).take 65535) := by
  intro h
  have hcommute := (commute_of_agrees (above_allocates 10000) (above_ne_zero (by decide))
    sample_tidy sample_dynamic (sample_source (by decide : 1 ≤ 1000) _) h).2
  revert hcommute
  decide

end FreeVMS.Rtl.Str
