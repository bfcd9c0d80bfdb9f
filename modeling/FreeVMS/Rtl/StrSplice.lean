import FreeVMS.Rtl.StrSubstring

/-!
# Replacement

`str$replace` puts the result together in its destination: what is in front of the part to replace,
the substitute, and what is behind the part, which goes through a temporary string. Where the end is
in front of the start it takes the characters between them twice.
-/

namespace FreeVMS.Rtl.Str

open Run (Ends)

variable {place : Store → Nat → Nat} {static : Nat → Prop} {σ : Store} {d source sub : Descriptor}
  {s u : List Byte} {p q : Nat}

/-- `str$replace` -/
def strReplace (place : Store → Nat → Nat) (destin source : Descriptor) (begin finish : BitVec 64)
    (sub : Descriptor) (σ : Store) : Except Fault Outcome := do
  let (s1Len, _) ← strAnalyzeSdesc σ.memory source
  let start := if begin.toInt < 1 then 1 else begin.toInt
  let last := if (s1Len.toNat : Int) < finish.toInt then (s1Len.toNat : Int) else finish.toInt
  if start ≤ last then
    let out ← strLeft place destin source (BitVec.ofInt 64 (start - 1)) σ
    let out ← strAppend place out.destination sub out.store
    let temp ← strRight place nullString source (BitVec.ofInt 64 (last + 1)) out.store
    let out ← strAppend place out.destination temp.destination temp.store
    let freed ← strFree1Dx temp.destination out.store
    return ⟨strNormal, out.destination, freed.store⟩
  else
    let newstart := BitVec.ofInt 64 last
    let newend := BitVec.ofInt 64 start
    let out ← strLeft place destin source (newstart - 1) σ
    let temp ← strPosExtr place nullString source newstart newend out.store
    let out ← strAppend place out.destination temp.destination temp.store
    let out ← strAppend place out.destination temp.destination out.store
    let temp ← strRight place temp.destination source (newend + 1) out.store
    let out ← strAppend place out.destination temp.destination temp.store
    let freed ← strFree1Dx temp.destination out.store
    return ⟨strIllstrpos, out.destination, freed.store⟩

theorem toInt_ofInt_of_isLong {x : Int} (h : -2 ^ 63 ≤ x ∧ x < 2 ^ 63) :
    (BitVec.ofInt 64 x).toInt = x := by
  rw [BitVec.toInt_ofInt]
  exact Int.bmod_eq_of_le (by omega) (by omega)

/-- It does not matter where in between it is cut. -/
theorem take_append_take (s t : List Byte) (n : Nat) : (s.take n ++ t).take n = (s ++ t).take n := by
  by_cases hlong : s.length ≤ n
  · rw [List.take_of_length_le hlong]
  · have hn : n ≤ s.length := Nat.le_of_not_le hlong
    rw [List.take_append_of_le_length hn, List.take_append_of_le_length (by
      rw [List.length_take, Nat.min_eq_left hn]), List.take_take, Nat.min_self]

/-- The end of `str$replace`: a temporary string is appended and freed. -/
theorem append_temporary (ha : Allocates place static) (hσ : Tidy static σ) (hd : Dynamic σ d s)
    {temp : Outcome} (htemp : Leaves static σ 0 u temp) (status : Nat) :
    Gives place static σ d.aPointer status ((s ++ u).take 65535)
      (strAppend place d temp.destination temp.store >>= fun out =>
        strFree1Dx temp.destination out.store >>= fun freed =>
          pure ⟨status, out.destination, freed.store⟩) := by
  obtain ⟨hd', hdistinct⟩ := hd.frame (q := 0) (by unfold Distinct; omega) htemp.frame
  apply Ends.bind (strAppend_dynamic ha htemp.tidy hd' (htemp.dynamic.to_source hdistinct.symm))
  rintro out ⟨-, hleaves⟩
  obtain ⟨htemp', hdistinct'⟩ := htemp.dynamic.frame hdistinct.symm hleaves.frame
  obtain ⟨freed, hfree, -, hfreed⟩ := strFree1Dx_dynamic hleaves.tidy htemp'
  rw [hfree, ok_bind]
  exact .ok ⟨rfl, hleaves.release hσ htemp.frame hdistinct'.symm hfreed _⟩

/-- `str$replace` of the part from `start` to `last`. -/
theorem strReplace_dynamic (ha : Allocates place static) (hσ : Tidy static σ) {old : List Byte}
    (hd : Dynamic σ d old) (hs : Source static σ [d.aPointer] source p s)
    (hsub : Source static σ [d.aPointer] sub q u) {begin finish : BitVec 64} {start last : Int}
    (hstart : max begin.toInt 1 = start) (hlast : min finish.toInt s.length = last)
    (hpart : start ≤ last) :
    Gives place static σ d.aPointer strNormal
      ((s.take (start - 1).toNat ++ u ++ s.drop last.toNat).take 65535)
      (strReplace place d source begin finish sub σ) := by
  have hfits' := hs.fits
  have hbegin : (if begin.toInt < 1 then 1 else begin.toInt) = start := by
    split <;> omega
  have hfinish : (if (s.length : Int) < finish.toInt then (s.length : Int) else finish.toInt) =
      last := by
    split <;> omega
  have hbefore : (BitVec.ofInt 64 (start - 1)).toInt = start - 1 :=
    toInt_ofInt_of_isLong (by omega)
  have hbehind : (BitVec.ofInt 64 (last + 1)).toInt = last + 1 := toInt_ofInt_of_isLong (by omega)
  simp only [strReplace, hs.analyzed, ok_bind, hs.toNat_length, hbegin, hfinish, if_pos hpart]
  have hleft := @strLeft_leaves place static σ d source s p ⟨ha, hσ, ⟨old, hd⟩, hs⟩
    (BitVec.ofInt 64 (start - 1)) (by omega)
  rw [hbefore] at hleft
  apply Ends.bind hleft
  intro out₁ hleaves₁
  apply Ends.bind (strAppend_dynamic ha hleaves₁.tidy hleaves₁.dynamic (hsub.frame hleaves₁.frame))
  rintro out₂ ⟨-, hleaves₂⟩
  -- nothing is behind the part if it goes up to the end: then the temporary string is freed
  have hsource : Source static out₂.store [0] source p s :=
    ((hs.frame hleaves₁.frame).frame hleaves₂.frame).to_null hleaves₂.tidy
  have hright := @strRight_leaves place static out₂.store nullString source s p
    ⟨ha, hleaves₂.tidy, ⟨[], nullString_dynamic _⟩, hsource⟩ (BitVec.ofInt 64 (last + 1)) (by omega)
  rw [hbehind, Int.add_sub_cancel] at hright
  apply Ends.bind hright
  intro temp htemp
  have happend := append_temporary ha hleaves₂.tidy hleaves₂.dynamic htemp strNormal
  rw [take_append_take] at happend
  exact happend.after (hleaves₁.trans hleaves₂)

/-- **Replacement.** Where the part to replace is in the source and the result is not too long, the
destination gets what is in front of the part, the substitute and what is behind the part. -/
theorem replace_splices (ha : Allocates place static) (hσ : Tidy static σ) {old : List Byte}
    (hd : Dynamic σ d old) (hs : Source static σ [d.aPointer] source p s)
    (hsub : Source static σ [d.aPointer] sub q u) (begin finish : BitVec 64)
    (hpart : max begin.toInt 1 ≤ min finish.toInt s.length)
    (hfits : (s.take (max begin.toInt 1 - 1).toNat ++ u ++
      s.drop (min finish.toInt s.length).toNat).length ≤ 65535) :
    Gives place static σ d.aPointer strNormal
      (s.take (max begin.toInt 1 - 1).toNat ++ u ++ s.drop (min finish.toInt s.length).toNat)
      (strReplace place d source begin finish sub σ) := by
  have hreplace := strReplace_dynamic ha hσ hd hs hsub rfl rfl hpart
  rwa [List.take_of_length_le hfits] at hreplace

/-- Position 2 of `ABC`. -/
theorem replace_splices_sample :
    Gives (above 10000) (· < 10000) sample 10000 strNormal [65, 65, 66, 67]
      (strReplace (above 10000) sampleString ⟨3, .s, 2000⟩ 2 2 ⟨2, .s, 2000⟩ sample) :=
  replace_splices (above_allocates 10000) sample_tidy sample_dynamic
    (sample_source (by decide : 3 ≤ 1000) _) (sample_source (by decide : 2 ≤ 1000) _) 2 2
    (by decide) (by decide)

end FreeVMS.Rtl.Str
