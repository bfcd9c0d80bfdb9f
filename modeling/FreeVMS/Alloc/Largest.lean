import FreeVMS.Alloc.Ledger
import FreeVMS.Lib.Tiling

/-!
# The largest block

`sys$biggest_fpage` at the bottom of a range of whole pages, and the loop of
`sys$fpage_clear_internal` that takes such blocks until the range is used up.
-/

namespace FreeVMS.Alloc

open Trace Tiling

/-- The largest block that begins at `base`, is aligned to its size and lies in `[base, end_]`. -/
structure Largest (base end_ : Nat) (f : Fpage) : Prop where
  address : l4Address f = base
  size : ∃ k, l4Size f = 2 ^ k
  aligned : base % l4Size f = 0
  fits : base + l4Size f ≤ end_ + 1
  largest : ∀ k, base % 2 ^ k = 0 → base + 2 ^ k ≤ end_ + 1 → 2 ^ k ≤ l4Size f

/-- The blocks taken from the bottom of `[base, end_]`, one after the other until nothing is left. -/
inductive TakenFrom (bits end_ : Nat) : Nat → List Fpage → Prop
  | nil : TakenFrom bits end_ (end_ + 1) []
  | cons {base : Nat} {fs : List Fpage} : base ≤ end_ →
      TakenFrom bits end_ (base + l4Size (biggestFpage bits base base end_)) fs →
      TakenFrom bits end_ base (biggestFpage bits base base end_ :: fs)

/-- The allocator when the blocks are filed and the range is used up. -/
def FpageAlloc.cleared (bits : Nat) (a : FpageAlloc) (fs : List Fpage) : FpageAlloc :=
  ⟨fun i => a.flist i ++ fs.filter fun f => fpOrder bits f = i, a.end_ + 1, a.end_, false⟩

/-- Every request is granted, and nothing goes wrong. -/
def sureJudge : Judge Empty Fault where
  calm _ := True
  fine _ := True
  allowed _ := False

section

variable {bits base end_ : Nat}

/-- The loop goes on as long as it can. -/
theorem biggestBits_goes {b : Nat} (fuel : Nat) (hfits : end_ + 1 < wordSize) (hb : b + 1 < 64)
    (hal : base % 2 ^ (b + 1) = 0) (hle : base + 2 ^ (b + 1) ≤ end_ + 1) :
    biggestBits base base end_ (fuel + 1) b = biggestBits base base end_ fuel (b + 1) := by
  have hone : wordShl 1 (b + 1) = 2 ^ (b + 1) := by
    rw [wordShl, Nat.mod_eq_of_lt hb, Nat.one_mul]
    exact Nat.mod_eq_of_lt (Nat.pow_lt_pow_right (by decide) hb)
  have hround : base / 2 ^ (b + 1) * 2 ^ (b + 1) = base :=
    Nat.div_mul_cancel (Nat.dvd_of_mod_eq_zero hal)
  have hpos : 0 < 2 ^ (b + 1) := Nat.two_pow_pos _
  rw [biggestBits]
  simp only [wordShl_shr hb (show base < wordSize by omega), hone, hround,
    wordAdd_sub_one hpos (show base + 2 ^ (b + 1) ≤ wordSize by omega)]
  rw [if_neg (by omega)]

theorem biggestBits_largest (hfits : end_ + 1 < wordSize) (hbase : base < wordSize) : ∀ (fuel b b' : Nat), fuel + b = 64 →
    biggestBits base base end_ fuel b = b' → b' + 1 < 64 →
      ¬ (base % 2 ^ (b' + 1) = 0 ∧ base + 2 ^ (b' + 1) ≤ end_ + 1) := by
  intro fuel
  induction fuel with
  | zero =>
    intro b b' hf hrun hlt
    rw [biggestBits] at hrun
    omega
  | succ fuel ih =>
    intro b b' hf hrun hlt
    by_cases hgo : b + 1 < 64 ∧ base % 2 ^ (b + 1) = 0 ∧ base + 2 ^ (b + 1) ≤ end_ + 1
    · obtain ⟨hb, hal, hle⟩ := hgo
      rw [biggestBits_goes fuel hfits hb hal hle] at hrun
      exact ih (b + 1) b' (by omega) hrun hlt
    · by_cases hb : b + 1 < 64
      · rcases biggestBits_step fuel (show base < wordSize from hbase) hb with
          hstop | ⟨hal, hle, -⟩
        · obtain rfl : b = b' := hstop.symm.trans hrun
          exact fun h => hgo ⟨hb, h⟩
        · exact absurd ⟨hb, hal, hle⟩ hgo
      · obtain rfl : fuel = 0 := by omega
        rw [biggestBits] at hrun
        split at hrun
        · omega
        · rw [biggestBits] at hrun
          omega

/-- **The largest block.** -/
theorem biggestFpage_largest (hb : PageBits bits) (h : Span bits base end_) :
    ∃ i, Block bits i (biggestFpage bits base base end_) base ∧
      Largest base end_ (biggestFpage bits base base end_) := by
  obtain ⟨b, hbb, h63, hrun, hal, htop, heq⟩ := biggestFpage_eq hb h
  have hfits := h.fits
  have hge := hb.ge
  have hle := hb.le
  have hidx : b - bits + bits = b := by omega
  have hblock : Block bits (b - bits) (biggestFpage bits base base end_) base := by
    refine ⟨?_, by omega, by rw [hidx]; exact hal, by rw [hidx]; omega⟩
    rw [heq, hidx]
  have hsize : l4Size (biggestFpage bits base base end_) = 2 ^ b := by
    rw [hblock.size hb, hidx]
  refine ⟨b - bits, hblock, hblock.address hb, ⟨b, hsize⟩, ?_, ?_, fun k halk hk => ?_⟩
  · rw [hsize]
    exact hal
  · rw [hsize]
    exact htop
  · rw [hsize]
    by_contra hlarger
    have hbk : b < k := (Nat.pow_lt_pow_iff_right (by decide)).mp (Nat.lt_of_not_le hlarger)
    have hpow : 2 ^ (b + 1) ≤ 2 ^ k := Nat.pow_le_pow_right (by decide) hbk
    exact biggestBits_largest hfits (by omega) (64 - bits) bits b (by omega) hrun (by omega)
      ⟨aligned_of_le hbk halk, by omega⟩

/-- Whole pages, in the lower 2^48 addresses. -/
structure WholePages (bits base end_ : Nat) : Prop where
  base_aligned : base % 2 ^ bits = 0
  end_aligned : (end_ + 1) % 2 ^ bits = 0
  lt : end_ < 2 ^ 48

theorem WholePages.span (h : WholePages bits base end_) (hb : PageBits bits) (hle : base ≤ end_) :
    Span bits base end_ := by
  have hlt := h.lt
  have hpage := hb.two_le
  have hgap := aligned_gap h.base_aligned h.end_aligned (Nat.lt_succ_of_le hle)
  have hword : wordSize = 2 ^ 64 := rfl
  exact ⟨h.base_aligned, h.end_aligned, by omega, by omega, fun _ => by omega⟩

/-- What is left behind the first block. -/
theorem WholePages.rest (h : WholePages bits base end_) (hb : PageBits bits) (hle : base ≤ end_) :
    WholePages bits (base + l4Size (biggestFpage bits base base end_)) end_ ∧
      2 ^ bits ≤ l4Size (biggestFpage bits base base end_) := by
  obtain ⟨i, hblock, -⟩ := biggestFpage_largest hb (h.span hb hle)
  rw [hblock.size hb]
  refine ⟨⟨?_, h.end_aligned, h.lt⟩, Nat.pow_le_pow_right (by decide) (Nat.le_add_left _ _)⟩
  rw [Nat.add_mod, h.base_aligned, Nat.zero_add, Nat.mod_mod]
  exact Nat.mod_eq_zero_of_dvd (two_pow_dvd_of_le (Nat.le_add_left _ _))

/-- Taking blocks comes to an end. -/
theorem exists_takenFrom (hb : PageBits bits) : ∀ (n base : Nat), end_ + 1 - base ≤ n →
    base ≤ end_ + 1 → WholePages bits base end_ → ∃ fs, TakenFrom bits end_ base fs := by
  intro n
  induction n with
  | zero =>
    intro base hn hle _
    obtain rfl : base = end_ + 1 := by omega
    exact ⟨[], .nil⟩
  | succ n ih =>
    intro base hn hle h
    rcases Nat.lt_or_ge end_ base with hlt | hge
    · obtain rfl : base = end_ + 1 := by omega
      exact ⟨[], .nil⟩
    · obtain ⟨hrest, hpage⟩ := h.rest hb hge
      obtain ⟨i, hblock, hlargest⟩ := biggestFpage_largest hb (h.span hb hge)
      have hpos := hb.two_le
      obtain ⟨fs, hfs⟩ := ih _ (by omega) hlargest.fits hrest
      exact ⟨_, .cons hge hfs⟩

theorem TakenFrom.tiles {fs : List Fpage} (hb : PageBits bits) (htaken : TakenFrom bits end_ base fs)
    (h : WholePages bits base end_) :
    Tiles base (end_ + 1) (fs.map fun f => (l4Address f, l4Size f)) := by
  induction htaken with
  | nil => exact tiles_empty _
  | @cons base fs hle _ ih =>
    obtain ⟨hrest, hpage⟩ := h.rest hb hle
    obtain ⟨i, hblock, hlargest⟩ := biggestFpage_largest hb (h.span hb hle)
    have hpos := hb.two_le
    have htiles := (ih hrest).prepend (show 0 < l4Size (biggestFpage bits base base end_) by omega)
    rw [List.map_cons, hlargest.address]
    exact htiles

theorem cleared_nil (a : FpageAlloc) (hbase : a.base = a.end_ + 1) :
    { a with active := false } = a.cleared bits [] := by
  rw [FpageAlloc.cleared, ← hbase]
  simp only [List.filter_nil, List.append_nil]

theorem cleared_cons {i : Nat} {f : Fpage} {fs : List Fpage} (a : FpageAlloc)
    (hf : fpOrder bits f = i) :
    ((a.file i f).advance (l4Size f)).cleared bits fs = a.cleared bits (f :: fs) := by
  have hlists : (fun j : Nat => (Function.update a.flist i (a.flist i ++ [f])) j ++
      fs.filter fun g => fpOrder bits g = j) =
        fun j : Nat => a.flist j ++ (f :: fs).filter fun g => fpOrder bits g = j := by
    funext j
    by_cases hj : j = i
    · rw [hj, Function.update_self, List.filter_cons_of_pos (by simpa using hf), List.append_assoc]
      rfl
    · rw [Function.update_of_ne hj, List.filter_cons_of_neg]
      simpa [hf] using fun heq => hj heq.symm
  rw [FpageAlloc.cleared, FpageAlloc.cleared, ← hlists]
  rfl

theorem TakenFrom.base_eq (h : TakenFrom bits end_ base []) : base = end_ + 1 := by
  cases h
  rfl

theorem TakenFrom.first {f : Fpage} {fs : List Fpage} (h : TakenFrom bits end_ base (f :: fs)) :
    base ≤ end_ ∧ f = biggestFpage bits base base end_ ∧
      TakenFrom bits end_ (base + l4Size f) fs := by
  cases h with
  | cons hle hrest => exact ⟨hle, rfl, hrest⟩

/-- The loop files these blocks. -/
theorem clearLoop_taken (hb : PageBits bits) {fs : List Fpage} : ∀ {a : FpageAlloc},
    TakenFrom bits a.end_ a.base fs → WholePages bits a.base a.end_ → a.active = true →
      ∀ fuel, fs.length < fuel → ∀ answers : Nat → Bool, (∀ k, answers k = true) →
        Wp sureJudge (clearLoop quietEnv bits fuel) ⟨a, answers⟩
          fun _ s' => s'.alloc = a.cleared bits fs := by
  induction fs with
  | nil =>
    intro a htaken _ _ fuel hfuel answers _
    obtain ⟨fuel, rfl⟩ := Nat.exists_eq_succ_of_ne_zero (Nat.ne_zero_of_lt hfuel)
    have hbase := htaken.base_eq
    refine wp_bind (wp_alloc (wp_ite (fun hlt => ?_) fun _ => wp_modify ?_))
    · have hgt : a.base < a.end_ := hlt
      omega
    · exact cleared_nil a hbase
  | cons f fs ih =>
    intro a htaken hwhole hact fuel hfuel answers hyes
    obtain ⟨fuel, rfl⟩ := Nat.exists_eq_succ_of_ne_zero (Nat.ne_zero_of_lt hfuel)
    obtain ⟨hle, rfl, hrest⟩ := htaken.first
    obtain ⟨i, hblock, hlargest⟩ := biggestFpage_largest hb (hwhole.span hb hle)
    have hlt := (hwhole.span hb hle).lt
    have h48 := hwhole.lt
    have hfits := hlargest.fits
    have hadd : wordAdd a.base (l4Size (biggestFpage bits a.base a.base a.end_)) =
        a.base + l4Size (biggestFpage bits a.base a.base a.end_) :=
      Nat.mod_eq_of_lt (by
        have hword : wordSize = 2 ^ 64 := rfl
        omega)
    refine wp_bind (wp_alloc (wp_ite (fun _ => ?_) fun hno => absurd hlt hno))
    refine wp_bind (wp_pure ?_)
    refine wp_bind (wp_bind (wp_read (wp_bind (wp_update (wp_pure ?_)))))
    refine wp_ite (fun _ => ?_) fun hno => absurd (hyes 0) hno
    refine wp_bind (wp_alloc (wp_bind (wp_insertTail hb hblock ?_)))
    refine wp_bind (wp_pure (wp_bind (wp_modify ?_)))
    have hnext := @ih ((a.file i (biggestFpage bits a.base a.base a.end_)).advance
      (l4Size (biggestFpage bits a.base a.base a.end_))) hrest (hwhole.rest hb hle).1 hact fuel
      (Nat.lt_of_succ_lt_succ hfuel) (fun k => answers (k + 1)) fun k => hyes (k + 1)
    rw [cleared_cons a (hblock.order hb)] at hnext
    have hstate : ({ a.file i (biggestFpage bits a.base a.base a.end_) with
        base := wordAdd a.base (l4Size (biggestFpage bits a.base a.base a.end_)) } : FpageAlloc) =
        (a.file i (biggestFpage bits a.base a.base a.end_)).advance
          (l4Size (biggestFpage bits a.base a.base a.end_)) := by
      rw [hadd]
      rfl
    rw [← hstate] at hnext
    exact hnext

/-- What `sys$fpage_clear_internal` does with the blocks of its range. -/
theorem fpageClearInternal_taken (hb : PageBits bits) {a : FpageAlloc} {fs : List Fpage}
    (htaken : TakenFrom bits a.end_ a.base fs) (h : WholePages bits a.base a.end_)
    (hact : a.active = true) :
    (fpageClearInternal quietEnv bits ⟨a, fun _ => true⟩).result = .ok () ∧
      (fpageClearInternal quietEnv bits ⟨a, fun _ => true⟩).state.alloc = a.cleared bits fs := by
  have htiles := htaken.tiles hb h
  have hcount : (fs.map fun f => (l4Address f, l4Size f)).length * 1 ≤ a.end_ + 1 - a.base :=
    htiles.length_le htiles.pos
  rw [List.length_map] at hcount
  have h48 := h.lt
  have hword : wordSize = 2 ^ 64 := rfl
  have hwp : Wp sureJudge (fpageClearInternal quietEnv bits) ⟨a, fun _ => true⟩
      fun _ s' => s'.alloc = a.cleared bits fs := by
    refine wp_bind (wp_alloc (wp_onlyIf (fun _ => ?_) fun hno => absurd hact hno))
    exact clearLoop_taken hb htaken h hact wordSize (by omega) _ fun _ => rfl
  have hends := hwp.ends fun e _ => trivial
  cases hrun : (fpageClearInternal quietEnv bits ⟨a, fun _ => true⟩).result with
  | ok u =>
    rw [hrun] at hends
    cases hends with
    | ok hstate => exact ⟨rfl, hstate⟩
  | error e =>
    rw [hrun] at hends
    cases hends with
    | error hno => exact absurd hno id

end

/-- **The largest block**, and what is made of a range by taking it again and again. -/
theorem biggest_fpage_right {bits base end_ : Nat} (hb : PageBits bits)
    (hbase : base % 2 ^ bits = 0) (hend : (end_ + 1) % 2 ^ bits = 0) (hle : base ≤ end_)
    (hlt : end_ < 2 ^ 48) :
    Largest base end_ (biggestFpage bits base base end_) ∧
      ∃ fs, TakenFrom bits end_ base fs ∧
        Tiles base (end_ + 1) (fs.map fun f => (l4Address f, l4Size f)) ∧
        ∀ flist, let out := fpageClearInternal quietEnv bits ⟨⟨flist, base, end_, true⟩, fun _ => true⟩
          out.result = .ok () ∧
            out.state.alloc = FpageAlloc.cleared bits ⟨flist, base, end_, true⟩ fs := by
  have hwhole : WholePages bits base end_ := ⟨hbase, hend, hlt⟩
  obtain ⟨i, -, hlargest⟩ := biggestFpage_largest hb (hwhole.span hb hle)
  obtain ⟨fs, hfs⟩ := exists_takenFrom hb _ base le_rfl (by omega) hwhole
  exact ⟨hlargest, fs, hfs, hfs.tiles hb hwhole, fun flist => fpageClearInternal_taken hb hfs hwhole rfl⟩

/-- 12 KiB from 0x3000 on: a page, and two pages together. -/
theorem three_pages_right : Largest 0x3000 0x5fff (biggestFpage 12 0x3000 0x3000 0x5fff) ∧
    ∃ fs, TakenFrom 12 0x5fff 0x3000 fs ∧
      Tiles 0x3000 (0x5fff + 1) (fs.map fun f => (l4Address f, l4Size f)) ∧
      ∀ flist, let out := fpageClearInternal quietEnv 12 ⟨⟨flist, 0x3000, 0x5fff, true⟩, fun _ => true⟩
        out.result = .ok () ∧
          out.state.alloc = FpageAlloc.cleared 12 ⟨flist, 0x3000, 0x5fff, true⟩ fs :=
  biggest_fpage_right ⟨by decide, by decide⟩ (by decide) (by decide) (by decide) (by decide)

end FreeVMS.Alloc
