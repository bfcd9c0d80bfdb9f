import FreeVMS.Rtl.StrDesc

/-!
# Varying strings

`str$copy_r` stores the current length of a varying string as a word in front of the text and
`str$analyze_sdesc` reads it back as one signed byte. The two agree on some lengths only.
-/

namespace FreeVMS.Rtl.Str

variable {place : Store → Nat → Nat}

/-- The length that `str$analyze_sdesc` reads where `str$$resize` wrote `w`. -/
def readBack (w : BitVec 16) : BitVec 16 := (w.setWidth 8).signExtend 16

theorem readBack_eq_iff (w : BitVec 16) :
    readBack w = w ↔ w.toNat < 128 ∨ 65408 ≤ w.toNat := by
  have hw := w.isLt
  rw [← BitVec.toNat_inj, readBack, BitVec.toNat_signExtend]
  simp only [BitVec.msb_eq_decide, BitVec.toNat_setWidth, decide_eq_true_eq]
  split_ifs <;> omega

theorem storeWord_low (m : Memory) (p : Nat) (w : BitVec 16) :
    storeWord m p w p = w.setWidth 8 := by
  rw [storeWord, Function.update_of_ne (by omega), Function.update_self]

theorem storeWord_of_outside (m : Memory) (p : Nat) (w : BitVec 16) {a : Nat}
    (ha : a < p ∨ p + 2 ≤ a) : storeWord m p w a = m a := by
  rw [storeWord, Function.update_of_ne (by omega), Function.update_of_ne (by omega)]

/-- The analysis of a varying string whose first byte is the low byte of `w`. -/
theorem strAnalyzeSdesc_varying {m : Memory} {d : Descriptor} (hd : d.bClass = .vs)
    (hp : d.aPointer ≠ 0) {w : BitVec 16} (hm : m d.aPointer = w.setWidth 8) :
    strAnalyzeSdesc m d =
      if readBack w ≤ d.wLength then .ok (readBack w, d.aPointer + 2) else .error .assertion := by
  by_cases h : readBack w ≤ d.wLength
  · rw [if_pos h]
    rw [readBack] at h ⊢
    simp [strAnalyzeSdesc, isStringClass, hd, hp, hm, strNormal, h]
  · rw [if_neg h]
    rw [readBack] at h
    simp [strAnalyzeSdesc, isStringClass, hd, hp, hm, strNormal, h]

/-- The shorter of the text and the room for it: what becomes the current length. -/
def current (d : Descriptor) (n : BitVec 16) : BitVec 16 := if d.wLength < n then d.wLength else n

theorem toNat_current (d : Descriptor) (n : BitVec 16) :
    (current d n).toNat = min n.toNat d.wLength.toNat := by
  rw [current]
  split
  · next h =>
    have h := BitVec.lt_def.mp h
    omega
  · next h =>
    have h := mt BitVec.lt_def.mpr h
    omega

theorem current_le (d : Descriptor) (n : BitVec 16) : current d n ≤ d.wLength := by
  rw [BitVec.le_def, toNat_current]
  exact Nat.min_le_right _ _

/-- The memory of `str$copy_r` between the length and the text. -/
def resized (d : Descriptor) (n : BitVec 16) (σ : Store) : Store :=
  { σ with memory := storeWord σ.memory d.aPointer (current d n) }

theorem strCopyR_varying (place : Store → Nat → Nat) {d : Descriptor} (hd : d.bClass = .vs) (hp : d.aPointer ≠ 0)
    (n : BitVec 16) (src : Nat) (σ : Store) :
    strCopyR place d n src σ =
      if readBack (current d n) ≤ d.wLength then
        let filled := strCopyFill (resized d n σ).memory (d.aPointer + 2)
          (readBack (current d n)).toNat src (if src ≠ 0 then n.toNat else 0) blank
        .ok ⟨filled.1, d, { resized d n σ with memory := filled.2 }⟩
      else .error .assertion := by
  have hresize : strResize place d n σ = .ok ⟨strNormal, d, resized d n σ⟩ := by
    simp [strResize, hd, hp, resized, current]
  have hanalyze := strAnalyzeSdesc_varying hd hp
    (storeWord_low σ.memory d.aPointer (current d n))
  have hclass : isStringClass d = strNormal := by simp [isStringClass, hd]
  simp only [strCopyR, hclass, hresize, ne_eq, not_true_eq_false, if_false, bind, Except.bind,
    pure, Except.pure]
  rw [show (resized d n σ).memory = storeWord σ.memory d.aPointer (current d n) from rfl,
    hanalyze]
  by_cases h : readBack (current d n) ≤ d.wLength
  · simp only [if_pos h]
  · simp only [if_neg h]

/-- What is promised of a text of `n` bytes put into a varying string and looked at again. -/
def RoundTrips (place : Store → Nat → Nat) (σ : Store) (d : Descriptor) (n : BitVec 16)
    (src : Nat) : Prop :=
  ∃ out, strCopyR place d n src σ = .ok out ∧ (d.wLength < n → out.status = strTru) ∧
    ∃ length address, strAnalyzeSdesc out.store.memory out.destination = .ok (length, address) ∧
      length.toNat = min n.toNat d.wLength.toNat ∧
      bytesAt out.store.memory address length.toNat =
        (bytesAt σ.memory src n.toNat).take length.toNat

/-- The text lies outside the buffer of the varying string. -/
def Apart (d : Descriptor) (n src : Nat) : Prop :=
  src + n ≤ d.aPointer ∨ d.aPointer + 2 + d.wLength.toNat ≤ src

/-- The text is not touched when the length is written. -/
theorem bytesAt_resized {d : Descriptor} {n : BitVec 16} {src : Nat} (σ : Store)
    (hapart : Apart d n.toNat src) :
    bytesAt (resized d n σ).memory src n.toNat = bytesAt σ.memory src n.toNat := by
  apply bytesAt_congr
  intro i hi
  apply storeWord_of_outside
  rcases hapart with h | h
  · omega
  · omega

/-- The text does not reach the length in front of it. -/
theorem strCopyFill_length {d : Descriptor} {n : BitVec 16} {src k : Nat} (σ : Store)
    {length : Nat} (hnull : src = 0 → k = 0) :
    (strCopyFill (resized d n σ).memory (d.aPointer + 2) length src k blank).2 d.aPointer =
      (current d n).setWidth 8 := by
  rw [strCopyFill_apply _ _ _ _ _ _ hnull, if_neg (by omega)]
  exact storeWord_low σ.memory d.aPointer (current d n)

/-- **Varying strings.** A text comes back from a varying string exactly when the length stored
is one that a signed byte holds: below 128, or from 65408 on. -/
theorem varying_round_trip (σ : Store) (d : Descriptor) (n : BitVec 16) (src : Nat)
    (hd : d.bClass = .vs) (hp : d.aPointer ≠ 0) (hsrc : src = 0 → n = 0)
    (hapart : Apart d n.toNat src) :
    RoundTrips place σ d n src ↔
      min n.toNat d.wLength.toNat < 128 ∨ 65408 ≤ min n.toNat d.wLength.toNat := by
  rw [← toNat_current, ← readBack_eq_iff]
  have hcopy := strCopyR_varying place hd hp n src σ
  have hk : (if src ≠ 0 then n.toNat else 0) = n.toNat := by
    by_cases h : src = 0
    · simp [h, hsrc h]
    · simp [h]
  have hnull : src = 0 → n.toNat = 0 := fun h => by simp [hsrc h]
  rw [hk] at hcopy
  constructor
  · rintro ⟨out, hout, -, length, address, hanalyze, hlength, -⟩
    rw [hcopy] at hout
    split at hout
    · next hle =>
      cases hout
      rw [strAnalyzeSdesc_varying hd hp (strCopyFill_length σ hnull), if_pos hle] at hanalyze
      cases hanalyze
      rwa [← toNat_current, BitVec.toNat_inj] at hlength
    · cases hout
  · intro hback
    have hle : readBack (current d n) ≤ d.wLength := by rw [hback]; exact current_le d n
    rw [if_pos hle, hback] at hcopy
    refine ⟨_, hcopy, ?_, current d n, d.aPointer + 2, ?_, toNat_current d n, ?_⟩
    · intro hlt
      have hlt' := BitVec.lt_def.mp hlt
      simp only [strCopyFill, toNat_current]
      rw [if_pos (by omega)]
    · rw [strAnalyzeSdesc_varying hd hp (strCopyFill_length σ hnull), if_pos hle, hback]
    · have hmin := toNat_current d n
      simp only
      rw [strCopyFill_bytes _ _ _ _ _ hnull, bytesAt_resized σ hapart, padded_of_le]
      rw [length_bytesAt]
      omega

/-- Three bytes in room for five. -/
theorem varying_round_trip_three :
    RoundTrips (fun _ _ => 0) ⟨fun _ => 65, []⟩ ⟨5, .vs, 1000⟩ 3 5000 :=
  (varying_round_trip ⟨fun _ => 65, []⟩ ⟨5, .vs, 1000⟩ 3 5000 rfl (by decide) (by decide)
    (Or.inr (by decide))).mpr (Or.inl (by decide))

/-- 200 bytes in room for 300: the length is read back as 65480 and the assertion fails. -/
theorem two_hundred_bytes_abort :
    ¬ RoundTrips (fun _ _ => 0) ⟨fun _ => 65, []⟩ ⟨300, .vs, 1000⟩ 200 5000 := by
  rintro ⟨out, hout, -⟩
  have habort : strCopyR (fun _ _ => 0) ⟨300, .vs, 1000⟩ 200 5000 ⟨fun _ => 65, []⟩ =
      .error .assertion := rfl
  rw [habort] at hout
  cases hout

end FreeVMS.Rtl.Str
