import FreeVMS.Alloc.Account

/-!
# Specifications of the allocator's functions

One statement for each function of `sys_alloc.c`, over an arbitrary environment that keeps
its contract: what the function returns and what it does to the account.
-/

namespace FreeVMS.Alloc

open Trace Cover

variable {ε σ : Type} {E : Env ε σ} {J : Judge ε Fault} {bits : Nat}

/-- The account after the change of the allocator from `E.get s` to `a`. -/
theorem Base.acct_eq_add (B : Base bits E J) {s : σ} {a : FpageAlloc} {d : Nat → Nat}
    (h : ∀ x, own a x = own (E.get s) x + d x) (x : Nat) :
    B.acct (E.set a s) x = B.acct s x + d x := by
  have h1 := B.acct_set a s x
  have h2 := h x
  omega

theorem Base.acct_add_eq (B : Base bits E J) {s : σ} {a : FpageAlloc} {d : Nat → Nat}
    (h : ∀ x, own a x + d x = own (E.get s) x) (x : Nat) :
    B.acct (E.set a s) x + d x = B.acct s x := by
  have h1 := B.acct_set a s x
  have h2 := h x
  omega

/-! ### Clearing the internal range -/

/-- The allocator at the head of the loop of `sys$fpage_clear_internal`: what is left of the
    range may be empty. -/
structure Draining (bits : Nat) (a : FpageAlloc) : Prop where
  filed : Filed bits a.flist
  active : a.active = true
  base_aligned : a.base % 2 ^ bits = 0
  end_aligned : (a.end_ + 1) % 2 ^ bits = 0
  le : a.base ≤ a.end_ + 1
  fits : a.end_ + 1 < wordSize
  half : a.base = 0 → a.end_ + 1 < 2 ^ 63

theorem AInv.draining {a : FpageAlloc} (h : AInv bits a) (hact : a.active = true) :
    Draining bits a := by
  have hs := h.range hact
  exact ⟨h.filed, hact, hs.base_aligned, hs.end_aligned, by have := hs.lt; omega, hs.fits, hs.half⟩

theorem Draining.span {a : FpageAlloc} (h : Draining bits a) (hlt : a.base < a.end_) :
    Span bits a.base a.end_ :=
  ⟨h.base_aligned, h.end_aligned, hlt, h.fits, h.half⟩

theorem Draining.ainv {a : FpageAlloc} (h : Draining bits a) (hlt : a.base < a.end_) :
    AInv bits a :=
  ⟨h.filed, fun _ => h.span hlt⟩

/-- An aligned range that is not longer than one address is empty. -/
theorem Draining.empty (hb : PageBits bits) {a : FpageAlloc} (h : Draining bits a)
    (hge : ¬ a.base < a.end_) : a.base = a.end_ + 1 := by
  have hle := h.le
  have hpage := hb.two_le
  by_contra hne
  have := aligned_gap h.base_aligned h.end_aligned (by omega)
  omega

/-- A request for space may have taken from the front of the range. -/
theorem Draining.narrow {a : FpageAlloc} (h : Draining bits a) {b : Nat} (hle : a.base ≤ b)
    (hal : b % 2 ^ bits = 0) (hlt : b < a.end_) : Draining bits { a with base := b } := by
  refine ⟨h.filed, h.active, hal, h.end_aligned, ?_, h.fits, fun h0 => h.half ?_⟩
  · exact Nat.le_of_lt (Nat.lt_succ_of_lt hlt)
  · have h0 : b = 0 := h0
    omega

/-- The first block of the range moved to its list. -/
theorem Draining.file_advance {a : FpageAlloc} (h : Draining bits a) {i : Nat} {f : Fpage}
    (hblock : Block bits i f a.base) (htop : a.base + 2 ^ (i + bits) ≤ a.end_ + 1) :
    Draining bits ((a.file i f).advance (2 ^ (i + bits))) := by
  have hpos : 0 < 2 ^ (i + bits) := by positivity
  refine ⟨h.filed.file hblock, h.active, ?_, h.end_aligned, htop, h.fits, fun h0 => ?_⟩
  · show (a.base + 2 ^ (i + bits)) % 2 ^ bits = 0
    rw [Nat.pow_add, Nat.add_mul_mod_self_right]
    exact h.base_aligned
  · have h0' : a.base + 2 ^ (i + bits) = 0 := h0
    omega

/-- A page taken off the range. -/
theorem Draining.advance_page {a : FpageAlloc} (h : Draining bits a) (hlt : a.base < a.end_) :
    Draining bits (a.advance (2 ^ bits)) := by
  have hpos : 0 < 2 ^ bits := by positivity
  refine ⟨h.filed, h.active, ?_, h.end_aligned, (h.span hlt).page_le, h.fits, fun h0 => ?_⟩
  · show (a.base + 2 ^ bits) % 2 ^ bits = 0
    rw [Nat.add_mod_right]
    exact h.base_aligned
  · have h0' : a.base + 2 ^ bits = 0 := h0
    omega

/-- Filing adds the block, advancing the range takes it off again. -/
theorem own_file_advance (hb : PageBits bits) {a : FpageAlloc} (hact : a.active = true) {i : Nat}
    {f : Fpage} (hblock : Block bits i f a.base) (htop : a.base + 2 ^ (i + bits) ≤ a.end_ + 1)
    (x : Nat) : own ((a.file i f).advance (2 ^ (i + bits))) x = own a x := by
  have hfile := own_file a f hblock.index_lt x
  have hadv := own_advance (a.file i f) (n := 2 ^ (i + bits)) hact htop x
  rw [hblock.span_eq hb] at hfile
  rw [show (a.file i f).base = a.base from rfl] at hadv
  omega

theorem own_deactivate {a : FpageAlloc} (hact : a.active = true) (hemp : a.base = a.end_ + 1)
    (x : Nat) : own { a with active := false } x = own a x := by
  simp only [own, FpageAlloc.rangeSize, hact, hemp, Nat.sub_self, if_true, Bool.false_eq_true,
    if_false]

section

variable (hb : PageBits bits) (C : Contract bits E J)

include hb

/-- One block has gone from the range to its list. -/
structure MovedBlock (s s' : σ) : Prop where
  inv : C.Inv s'
  draining : Draining bits (E.get s')
  acct : C.acct s' = C.acct s
  end_eq : (E.get s').end_ = (E.get s).end_
  base_lt : (E.get s).base < (E.get s').base
  appends : Appends (E.get s) (E.get s') (span (E.get s).base (E.get s).rangeSize)
    (E.get s).rangeSize

/-- The body of the loop behind the request for space. -/
theorem wp_moveBlock {s : σ} {lo hi : Nat} {k : Prog ε σ Fault Unit} {Q : Unit → σ → Prop}
    (hinv : C.Inv s) (hdr : Draining bits (E.get s)) (hlt : (E.get s).base < (E.get s).end_)
    (hlo : lo ≤ (E.get s).base) (hhi : (E.get s).end_ = hi)
    (hk : ∀ s', MovedBlock C s s' → Wp J k s' Q) :
    Wp J (do
      let fpage := biggestFpage bits (E.get s).base (E.get s).base (E.get s).end_
      insertTail E (fpOrder bits fpage) fpage
      E.filed lo hi fpage
      E.modify fun a => { a with base := wordAdd a.base (l4Size fpage) }
      k) s Q := by
  obtain ⟨i, hblock, htop⟩ := biggestFpage_spec hb (hdr.span hlt)
  generalize biggestFpage bits (E.get s).base (E.get s).base (E.get s).end_ = f at hblock ⊢
  have hpos : 0 < 2 ^ (i + bits) := by positivity
  have hfits := hdr.fits
  have hsize : l4Size f = 2 ^ (i + bits) := hblock.size hb
  refine wp_bind (wp_insertTail hb hblock ?_)
  refine wp_bind ((C.filed _ _ _ _ i _ (C.inv_set _ _ hinv) hblock hlo (hhi ▸ htop)).mono ?_)
  rintro _ s' ⟨hinv', hget, hacct⟩
  rw [C.get_set] at hget
  refine wp_bind (wp_modify ?_)
  have hbase : (E.get s').base = (E.get s).base := by rw [hget]; rfl
  have hadd : { E.get s' with base := wordAdd (E.get s').base (l4Size f) } =
      (E.get s').advance (2 ^ (i + bits)) := by
    rw [FpageAlloc.advance, hsize, hbase, wordAdd, Nat.mod_eq_of_lt (by omega)]
  rw [hadd]
  have hfinal : E.get (E.set ((E.get s').advance (2 ^ (i + bits))) s') =
      ((E.get s).file i f).advance (2 ^ (i + bits)) := by
    rw [C.get_set, hget]
  apply hk
  constructor
  case inv => exact C.inv_set _ _ hinv'
  case draining => rw [hfinal]; exact hdr.file_advance hblock htop
  case acct =>
    funext x
    -- the block is counted in its list and no longer in the range
    have h1 := C.acct_set ((E.get s').advance (2 ^ (i + bits))) s' x
    have h2 := C.acct_set ((E.get s).file i f) s x
    have h3 := own_file_advance hb hdr.active hblock htop x
    rw [hacct, hget] at h1
    rw [hget]
    omega
  case end_eq => rw [hfinal]; rfl
  case base_lt => rw [hfinal]; exact Nat.lt_add_of_pos_right hpos
  case appends =>
    rw [hfinal]
    exact Appends.file_advance hdr.active (hblock.address hb) hsize htop i

/-- **`sys$fpage_clear_internal`, the loop.**  The range moves to the free lists block by
    block. -/
theorem clearLoop_wp :
    ∀ (fuel : Nat) (s : σ), C.Inv s → Draining bits (E.get s) →
      (E.get s).end_ + 1 - (E.get s).base < fuel →
      Wp J (clearLoop E bits fuel) s fun _ s' => C.Inv s' ∧ AInv bits (E.get s') ∧
        C.acct s' = C.acct s ∧ (C.reliable → (E.get s').active = false) ∧
        Appends (E.get s) (E.get s') (span (E.get s).base (E.get s).rangeSize)
          (E.get s).rangeSize := by
  intro fuel
  induction fuel with
  | zero => intro s _ _ hf; omega
  | succ fuel ih =>
    intro s hinv hdr hf
    refine wp_bind (wp_alloc (wp_ite (fun hlt => ?_) fun hge => wp_modify ?_))
    · refine wp_bind ((C.clearing s hinv (hdr.ainv hlt) hdr.active).mono fun _ s₁ hs₁ => ?_)
      refine wp_bind (hs₁.mono fun r s₂ hs₂ => ?_)
      obtain ⟨hrel, hinv₂, hacct₂, b, hle, hal, hbe, hget⟩ := hs₂
      -- what is left of the range after the request
      have hdr₂ : Draining bits (E.get s₂) := by rw [hget]; exact hdr.narrow hle hal hbe
      have hlt₂ : (E.get s₂).base < (E.get s₂).end_ := by rw [hget]; exact hbe
      have hle₂ : (E.get s).base ≤ (E.get s₂).base := by rw [hget]; exact hle
      have hend₂ : (E.get s₂).end_ = (E.get s).end_ := by rw [hget]
      have hnarrow : Appends (E.get s) (E.get s₂) (span (E.get s).base (E.get s).rangeSize)
          (E.get s).rangeSize := by
        rw [hget]
        exact Appends.narrow hle
      cases r with
      | false => exact wp_pure ⟨hinv₂, hdr₂.ainv hlt₂, hacct₂, fun h => absurd (hrel h) (by decide), hnarrow⟩
      | true =>
        refine wp_bind (wp_alloc (wp_moveBlock hb C hinv₂ hdr₂ hlt₂ hle₂ hend₂ fun s₃ h₃ => ?_))
        refine (ih s₃ h₃.inv h₃.draining ?_).mono ?_
        · have hend := h₃.end_eq
          have hbase := h₃.base_lt
          omega
        · rintro _ s' ⟨h1, h2, h3, h4, h5⟩
          refine ⟨h1, h2, h3.trans (h₃.acct.trans hacct₂), h4, ?_⟩
          have hlate := h₃.appends.trans h5 (fun _ => Nat.le_refl _) h₃.appends.range
            (Nat.le_add_right _ 0)
          exact hnarrow.trans hlate (fun _ => Nat.le_refl _) hnarrow.range (Nat.le_add_right _ 0)
    · refine ⟨C.inv_set _ _ hinv, ?_, ?_, fun _ => by rw [C.get_set], ?_⟩
      · rw [C.get_set]
        exact ⟨hdr.filed, fun h => absurd h Bool.false_ne_true⟩
      · funext x
        have h := C.acct_eq_add (s := s) (d := fun _ => 0)
          (fun x => own_deactivate hdr.active (hdr.empty hb hge) x) x
        exact h
      · rw [C.get_set]
        exact Appends.deactivate _

theorem fpageClearInternal_wp (s : σ) (hinv : C.Inv s) (ha : AInv bits (E.get s)) :
    Wp J (fpageClearInternal E bits) s fun _ s' => C.Inv s' ∧ AInv bits (E.get s') ∧
      C.acct s' = C.acct s ∧ (C.reliable → (E.get s').active = false) ∧
      Appends (E.get s) (E.get s') (span (E.get s).base (E.get s).rangeSize)
        (E.get s).rangeSize := by
  refine wp_bind (wp_alloc (wp_onlyIf (fun hact => ?_) fun hact => ?_))
  · have hdr := ha.draining hact
    have hfits := hdr.fits
    exact clearLoop_wp hb C wordSize s hinv hdr (by omega)
  · exact ⟨hinv, ha, rfl, fun _ => by simpa using hact, Appends.refl _⟩

/-! ### Freeing -/

omit hb in
/-- Memory `d` was added to the account; when a node can be turned down, some of what the
    account held before may be lost. -/
def Gained (C : Contract bits E J) (s s' : σ) (d : Nat → Nat) : Prop :=
  (∀ x, C.acct s' x ≤ C.acct s x + d x) ∧ (C.reliable → ∀ x, C.acct s' x = C.acct s x + d x)

omit hb in
theorem Gained.of_zero (C : Contract bits E J) {s : σ} {d : Nat → Nat} (hd : ∀ x, d x = 0) :
    Gained C s s d :=
  ⟨fun _ => Nat.le_add_right _ _, fun _ x => by rw [hd, Nat.add_zero]⟩

omit hb in
theorem Gained.trans {C : Contract bits E J} {s s' s'' : σ} {d d' : Nat → Nat} (h : Gained C s s' d)
    (h' : Gained C s' s'' d') : Gained C s s'' fun x => d x + d' x := by
  constructor
  · intro x
    have h1 := h.1 x
    have h2 := h'.1 x
    show C.acct s'' x ≤ C.acct s x + (d x + d' x)
    omega
  · intro hr x
    rw [h'.2 hr x, h.2 hr x, Nat.add_assoc]

omit hb in
/-- What freeing `[base, end_]` does to the lists. -/
def Refilled (a a' : FpageAlloc) (base end_ : Nat) : Prop :=
  Appends a a' (fun x => span a.base a.rangeSize x + span base (end_ + 1 - base) x)
    (a.rangeSize + (end_ + 1 - base))

/-- **`sys$fpage_free_internal`.** -/
theorem fpageFreeInternal_wp (s : σ) (hinv : C.Inv s) (ha : AInv bits (E.get s)) {base end_ : Nat}
    (hspan : Span bits base end_) :
    Wp J (fpageFreeInternal E bits base end_) s fun _ s' => C.Inv s' ∧ AInv bits (E.get s') ∧
      Gained C s s' (span base (end_ + 1 - base)) ∧ Refilled (E.get s) (E.get s') base end_ ∧
      (E.get s').base = base ∧ (E.get s').end_ = end_ ∧ (E.get s').active = true := by
  have hset : ∀ s₁, C.Inv s₁ → AInv bits (E.get s₁) → C.acct s₁ = C.acct s →
      (C.reliable → (E.get s₁).active = false) →
      Appends (E.get s) (E.get s₁) (span (E.get s).base (E.get s).rangeSize)
        (E.get s).rangeSize →
      C.Inv (E.set ((E.get s₁).withRange base end_) s₁) ∧
        AInv bits (E.get (E.set ((E.get s₁).withRange base end_) s₁)) ∧
        Gained C s (E.set ((E.get s₁).withRange base end_) s₁) (span base (end_ + 1 - base)) ∧
        Refilled (E.get s) (E.get (E.set ((E.get s₁).withRange base end_) s₁)) base end_ ∧
        (E.get (E.set ((E.get s₁).withRange base end_) s₁)).base = base ∧
        (E.get (E.set ((E.get s₁).withRange base end_) s₁)).end_ = end_ ∧
        (E.get (E.set ((E.get s₁).withRange base end_) s₁)).active = true := by
    intro s₁ h1 h2 h3 h4 h5
    rw [C.get_set]
    refine ⟨C.inv_set _ _ h1, ⟨h2.filed, fun _ => hspan⟩, ?_, ?_, rfl, rfl, rfl⟩
    · have hacct : ∀ x, C.acct (E.set ((E.get s₁).withRange base end_) s₁) x +
          span (E.get s₁).base (E.get s₁).rangeSize x =
          C.acct s x + span base (end_ + 1 - base) x := by
        intro x
        have hx := C.acct_set ((E.get s₁).withRange base end_) s₁ x
        have ho := own_withRange (E.get s₁) base end_ x
        rw [h3] at hx
        omega
      refine ⟨fun x => by have := hacct x; omega, fun hrel x => ?_⟩
      have hz : (E.get s₁).rangeSize = 0 := by
        rw [FpageAlloc.rangeSize, h4 hrel]
        rfl
      have := hacct x
      rw [hz, span_zero] at this
      omega
    · exact h5.trans (Appends.withRange _ base end_) (fun x => Nat.le_add_right _ _)
        (fun x => Nat.le_add_left _ _) (Nat.le_add_left _ _)
  refine wp_bind (wp_alloc (wp_bind (wp_onlyIf (fun hact => ?_) fun hact => wp_modify ?_)))
  · refine (fpageClearInternal_wp hb C s hinv ha).mono ?_
    rintro _ s₁ ⟨h1, h2, h3, h4, h5⟩
    exact wp_modify (hset s₁ h1 h2 h3 h4 h5)
  · exact hset s hinv ha rfl (fun _ => by simpa using hact) (Appends.refl _)

/-- **`sys$fpage_free_chunk`.** -/
theorem fpageFreeChunk_wp (s : σ) (hinv : C.Inv s) (ha : AInv bits (E.get s)) {base end_ : Nat}
    (hspan : Span bits base end_) :
    Wp J (fpageFreeChunk E bits base end_) s fun _ s' => C.Inv s' ∧ AInv bits (E.get s') ∧
      Gained C s s' (span base (end_ + 1 - base)) ∧ Refilled (E.get s) (E.get s') base end_ := by
  have hrest : ∀ s₁, C.Inv s₁ → AInv bits (E.get s₁) → C.acct s₁ = C.acct s →
      Appends (E.get s) (E.get s₁) (span (E.get s).base (E.get s).rangeSize)
        (E.get s).rangeSize →
      Wp J (fpageFreeInternal E bits base end_ >>= fun _ => fpageClearInternal E bits) s₁
        fun _ s' => C.Inv s' ∧ AInv bits (E.get s') ∧
          Gained C s s' (span base (end_ + 1 - base)) ∧
          Refilled (E.get s) (E.get s') base end_ := by
    intro s₁ h1 h2 h3 h4
    refine wp_bind ((fpageFreeInternal_wp hb C s₁ h1 h2 hspan).mono ?_)
    rintro _ s₂ ⟨k1, k2, k3, k4, k5, k6, k7⟩
    refine (fpageClearInternal_wp hb C s₂ k1 k2).mono ?_
    rintro _ s₃ ⟨m1, m2, m3, -, m4⟩
    refine ⟨m1, m2, ⟨fun x => by rw [m3, ← h3]; exact k3.1 x,
      fun hrel x => by rw [m3, ← h3]; exact k3.2 hrel x⟩, ?_⟩
    -- the range that was there goes to the lists first, then the new one
    have hrange : ∀ x, span (E.get s₂).base (E.get s₂).rangeSize x =
        span base (end_ + 1 - base) x := fun x => by
      rw [FpageAlloc.rangeSize, k7, if_pos rfl, k5, k6]
    have hearly : Refilled (E.get s) (E.get s₂) base end_ :=
      h4.trans k4 (fun x => Nat.le_add_right _ _)
        (fun x => Nat.add_le_add_right (h4.range x) _) (Nat.le_refl _)
    exact hearly.trans m4 (fun _ => Nat.le_refl _)
      (fun x => (hrange x).le.trans (Nat.le_add_left _ _)) (Nat.le_add_right _ 0)
  refine wp_bind (wp_alloc (wp_bind (wp_onlyIf (fun hact => ?_) fun hact => ?_)))
  · refine (fpageClearInternal_wp hb C s hinv ha).mono ?_
    rintro _ s₁ ⟨h1, h2, h3, -, h4⟩
    exact hrest s₁ h1 h2 h3 h4
  · exact hrest s hinv ha rfl (Appends.refl _)

end

/-! ### Taking pages off the internal range -/

theorem firstUsed_spec (flist : Nat → List Fpage) :
    ∀ (n i : Nat), i ≤ firstUsed flist n i ∧ firstUsed flist n i ≤ i + n ∧
      (firstUsed flist n i < i + n → flist (firstUsed flist n i) ≠ []) := by
  intro n
  induction n with
  | zero => exact fun i => ⟨Nat.le_refl _, Nat.le_refl _, fun h => absurd h (by simp [firstUsed])⟩
  | succ n ih =>
    intro i
    rw [firstUsed]
    by_cases he : (flist i).isEmpty = true
    · rw [if_pos he]
      obtain ⟨h1, h2, h3⟩ := ih (i + 1)
      exact ⟨by omega, by omega, fun h => h3 (by omega)⟩
    · rw [if_neg he]
      exact ⟨Nat.le_refl _, by omega, fun _ hnil => he (by rw [hnil]; rfl)⟩

section

variable (hb : PageBits bits) (B : Base bits E J)

include hb

theorem Block.span {i : Nat} {f : Fpage} {a : Nat} (h : Block bits i f a) :
    Span bits a (fpEnd f) := by
  have hend := h.fpEnd_eq hb
  have hpos : 2 ^ bits ≤ 2 ^ (i + bits) := Nat.pow_le_pow_right (by decide) (by omega)
  have hpage := hb.two_le
  have hal : a % 2 ^ bits = 0 := aligned_of_le (show bits ≤ i + bits by omega) h.aligned
  refine ⟨hal, ?_, by omega, by rw [hend]; exact h.fits, fun h0 => ?_⟩
  · rw [hend, Nat.pow_add, Nat.add_mul_mod_self_right]
    exact hal
  · have : 2 ^ (i + bits) < 2 ^ 63 := Nat.pow_lt_pow_right (by decide) h.small
    omega

/-- What is left of a block above its first `n` bytes can be freed. -/
theorem Block.rest_span {i : Nat} {f : Fpage} {b n : Nat} (h : Block bits i f b)
    (hn : n % 2 ^ bits = 0) (hlt : n < 2 ^ (i + bits)) : Span bits (b + n) (fpEnd f) := by
  have hs := h.span hb
  have hend := h.fpEnd_eq hb
  have hal : (b + n) % 2 ^ bits = 0 := by
    rw [Nat.add_mod, hs.base_aligned, hn]
    rfl
  have hend' := hs.end_aligned
  have hfits := hs.fits
  have hdr : b + n < fpEnd f := by
    by_contra hge
    have hd : Draining bits ⟨fun _ => [], b + n, fpEnd f, true⟩ :=
      ⟨fun i f hf => absurd hf List.not_mem_nil, rfl, hal, hend', by
        show b + n ≤ fpEnd f + 1; omega, hfits, fun h0 => hs.half (by
        have h0' : b + n = 0 := h0
        omega)⟩
    have := hd.empty hb hge
    have heq : b + n = fpEnd f + 1 := this
    omega
  exact ⟨hal, hend', hdr, hfits, fun h0 => hs.half (by omega)⟩

/-- A new internal range is a block of the free lists. -/
theorem refillInternal_wp (s : σ) (hinv : B.Inv s) (ha : AInv bits (E.get s))
    (hact : (E.get s).active = false) :
    Wp J (refillInternal E) s fun _ s' => B.Inv s' ∧ AInv bits (E.get s') ∧
      B.acct s' = B.acct s ∧ (E.get s').active = true ∧
      listBytes (E.get s') ≤ listBytes (E.get s) := by
  refine wp_bind (wp_alloc (wp_ite (fun _ => wp_raise B.panic) fun hne => ?_))
  obtain ⟨-, hle, hused⟩ := firstUsed_spec (E.get s).flist maxFpageOrder 0
  generalize firstUsed (E.get s).flist maxFpageOrder 0 = i at hne hle hused
  have hi : i < maxFpageOrder + 1 := by omega
  cases hl : (E.get s).flist i with
  | nil => exact absurd hl (hused (by omega))
  | cons node rest =>
    obtain ⟨b, hblock⟩ := ha.filed i node (by rw [hl]; exact List.mem_cons_self)
    refine wp_bind (wp_modify ?_)
    have hacct : ∀ x, B.acct (E.set (((E.get s).relist i rest).withRange (l4Address node)
        (fpEnd node)) s) x = B.acct s x := by
      intro x
      have hx := B.acct_set (((E.get s).relist i rest).withRange (l4Address node) (fpEnd node)) s x
      have ht := own_tail (E.get s) hl hi x
      have hw := own_withRange ((E.get s).relist i rest) (l4Address node) (fpEnd node) x
      have hz : ((E.get s).relist i rest).rangeSize = 0 := by
        show (if (E.get s).active = true then _ else 0) = 0
        rw [hact]
        rfl
      have hsz : fpEnd node + 1 - l4Address node = 2 ^ (i + bits) := by
        rw [hblock.address hb, hblock.fpEnd_eq hb, Nat.add_sub_cancel_left]
      rw [hz, span_zero, hsz] at hw
      rw [hblock.span_eq hb, ← hblock.address hb] at ht
      omega
    refine (B.slabFree _ (B.inv_set _ _ hinv)).mono ?_
    rintro _ s' ⟨h1, h2, h3⟩
    rw [B.get_set] at h2
    rw [h2]
    refine ⟨h1, ⟨ha.filed.tail hl, fun _ => ?_⟩, h3.trans (funext hacct), rfl, ?_⟩
    · show Span bits (l4Address node) (fpEnd node)
      rw [hblock.address hb]
      exact hblock.span hb
    · have := listBytes_tail (E.get s) hl hi
      show listBytes ((E.get s).relist i rest) ≤ listBytes (E.get s)
      omega

omit hb in
/-- The first page of a range. -/
theorem Span.firstPage {base end_ : Nat} (hb : PageBits bits) (h : Span bits base end_) :
    Span bits base (base + 2 ^ bits - 1) := by
  have hpage := h.page_le
  have hfits := h.fits
  have hp2 := hb.two_le
  refine ⟨h.base_aligned, ?_, by omega, by omega, fun h0 => ?_⟩
  · rw [show base + 2 ^ bits - 1 + 1 = base + 2 ^ bits by omega, Nat.add_mod_right]
    exact h.base_aligned
  · have := h.half h0
    omega

/-- Taking one page off an active range. -/
theorem takePage_wp (s : σ) (hinv : B.Inv s) (ha : AInv bits (E.get s))
    (hact : (E.get s).active = true) :
    Wp J (do
      let a ← E.alloc
      if wordAdd (wordSub a.end_ a.base) 1 < 2 ^ bits then return invalidAddr
      else
        E.modify fun a => { a with
          base := wordAdd a.base (2 ^ bits)
          active := if wordAdd a.base (2 ^ bits) ≥ a.end_ then false else a.active }
        return a.base) s fun mem s' => B.Inv s' ∧ AInv bits (E.get s') ∧
      Span bits mem (mem + 2 ^ bits - 1) ∧ (∀ x, B.acct s' x + span mem (2 ^ bits) x = B.acct s x) ∧
      listBytes (E.get s') = listBytes (E.get s) ∧
      ((E.get s).base + 2 ^ bits < (E.get s).end_ → s' = E.set ((E.get s).advance (2 ^ bits)) s) := by
  have hspan := ha.range hact
  have hpage := hspan.page_le
  have hfits := hspan.fits
  have hlt := hspan.lt
  have hnext := (ha.draining hact).advance_page hlt
  have hmem := hspan.firstPage hb
  have hcount : wordAdd (wordSub (E.get s).end_ (E.get s).base) 1 =
      (E.get s).end_ - (E.get s).base + 1 := by
    rw [wordSub, show (E.get s).end_ + (wordSize - (E.get s).base) =
      (E.get s).end_ - (E.get s).base + wordSize by omega, Nat.add_mod_right,
      Nat.mod_eq_of_lt (by omega), wordAdd, Nat.mod_eq_of_lt (by omega)]
  have hadd : wordAdd (E.get s).base (2 ^ bits) = (E.get s).base + 2 ^ bits := by
    rw [wordAdd, Nat.mod_eq_of_lt (by omega)]
  refine wp_bind (wp_alloc (wp_ite (fun hsmall => ?_) fun _ => wp_bind (wp_modify (wp_pure ?_))))
  · rw [hcount] at hsmall
    omega
  · rw [hadd]
    by_cases hlast : (E.get s).base + 2 ^ bits ≥ (E.get s).end_
    · -- the last page: the range is used up
      have hend : (E.get s).base + 2 ^ bits = (E.get s).end_ + 1 :=
        hnext.empty hb (Nat.not_lt.mpr hlast)
      rw [if_pos hlast]
      refine ⟨B.inv_set _ _ hinv, ?_, hmem, ?_, by rw [B.get_set]; rfl, fun h => by omega⟩
      · rw [B.get_set]
        exact ⟨ha.filed, fun h => absurd h Bool.false_ne_true⟩
      · intro x
        refine B.acct_add_eq (s := s) (d := span (E.get s).base (2 ^ bits)) (fun x => ?_) x
        simp only [own, FpageAlloc.rangeSize, hact, Bool.false_eq_true, if_false, if_true, span_zero]
        rw [← hend, Nat.add_sub_cancel_left]
        omega
    · rw [if_neg hlast]
      have hset : { E.get s with
          base := (E.get s).base + 2 ^ bits, active := (E.get s).active } =
          (E.get s).advance (2 ^ bits) := rfl
      rw [hset]
      refine ⟨B.inv_set _ _ hinv, ?_, hmem, ?_, by rw [B.get_set]; rfl, fun _ => rfl⟩
      · rw [B.get_set]
        exact hnext.ainv (Nat.lt_of_not_le hlast)
      · exact fun x => B.acct_add_eq (s := s) (own_advance (E.get s) hact hpage) x

/-- **`sys$fpage_alloc_internal`.**  One page leaves the account; the function panics when
    nothing is free.  While more than a page is left of an active range, it moves on by a page
    and nothing else happens. -/
theorem fpageAllocInternal_wp (s : σ) (hinv : B.Inv s) (ha : AInv bits (E.get s)) :
    Wp J (fpageAllocInternal E (2 ^ bits)) s fun mem s' => B.Inv s' ∧ AInv bits (E.get s') ∧
      Span bits mem (mem + 2 ^ bits - 1) ∧ (∀ x, B.acct s' x + span mem (2 ^ bits) x = B.acct s x) ∧
      listBytes (E.get s') ≤ listBytes (E.get s) ∧
      ((E.get s).active = true → (E.get s).base + 2 ^ bits < (E.get s).end_ →
        s' = E.set ((E.get s).advance (2 ^ bits)) s) := by
  refine wp_bind (wp_alloc (wp_bind (wp_onlyIf (fun hact => ?_) fun hact => ?_)))
  · refine (refillInternal_wp hb B s hinv ha hact).mono ?_
    rintro _ s₁ ⟨h1, h2, h3, h4, h5⟩
    refine (takePage_wp hb B s₁ h1 h2 h4).mono ?_
    rintro mem s' ⟨k1, k2, k3, k4, k5, -⟩
    refine ⟨k1, k2, k3, fun x => by rw [k4 x, h3], by omega, fun hno => ?_⟩
    rw [hact] at hno
    exact absurd hno Bool.false_ne_true
  · refine (takePage_wp hb B s hinv ha (by simpa using hact)).mono ?_
    rintro mem s' ⟨k1, k2, k3, k4, k5, k6⟩
    exact ⟨k1, k2, k3, k4, by omega, fun _ => k6⟩

end

end FreeVMS.Alloc
