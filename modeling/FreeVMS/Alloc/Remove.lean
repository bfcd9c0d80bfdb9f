import FreeVMS.Alloc.Spec

/-!
# Removing a range

`sys$fpage_remove_chunk` takes every flexpage that meets `[base, end_]` off the free lists
and frees what of it lies outside the range.  It looks at the free lists only: the internal
range is cut into flexpages by the first `sys$fpage_free_chunk` inside the loop, and a
flexpage that is filed in a list the loop has left stays there.
-/

namespace FreeVMS.Alloc

open Trace Cover

/-- `[base, end_]` is a range of whole pages. -/
structure Paged (bits base end_ : Nat) : Prop where
  base_aligned : base % 2 ^ bits = 0
  end_aligned : (end_ + 1) % 2 ^ bits = 0

/-- No address of `[base, end_]` is in `d`. -/
def Off (base end_ : Nat) (d : Nat → Nat) : Prop := ∀ x, base ≤ x → x ≤ end_ → d x = 0

theorem Off.of_le {base end_ : Nat} {d d' : Nat → Nat} (h : Off base end_ d)
    (hle : ∀ x, d' x ≤ d x) : Off base end_ d' := fun x h1 h2 =>
  Nat.le_zero.mp (h x h1 h2 ▸ hle x)

/-- What the trimming of a block at `b` leaves free: the parts below `base` and above
    `end_`. -/
def trimmed (base end_ b fend x : Nat) : Nat :=
  span b (base - b) x + span (end_ + 1) (fend - end_) x

theorem trimmed_off (base end_ b fend : Nat) : Off base end_ (trimmed base end_ b fend) := by
  intro x h1 h2
  have hlow : span b (base - b) x = 0 := span_eq_zero.mpr (by omega)
  have hhigh : span (end_ + 1) (fend - end_) x = 0 := span_eq_zero.mpr (by omega)
  rw [trimmed, hlow, hhigh]

/-- A block is what is trimmed and what lies in the range. -/
theorem trimmed_le {base end_ b fend : Nat} (x : Nat) (hmeet : max base b < min end_ fend) :
    trimmed base end_ b fend x ≤ span b (fend + 1 - b) x := by
  unfold trimmed span
  split <;> split <;> split <;> omega

theorem trimmed_eq {base end_ b fend x : Nat} (hmeet : max base b < min end_ fend)
    (hx : ¬ (base ≤ x ∧ x ≤ end_)) : trimmed base end_ b fend x = span b (fend + 1 - b) x := by
  unfold trimmed span
  split <;> split <;> split <;> omega

section

variable {ε σ : Type} {E : Env ε σ} {J : Judge ε Fault} {bits : Nat}
variable (hb : PageBits bits) (C : Contract bits E J)

/-- The part of a block below an aligned address. -/
theorem Block.low_span {i b : Nat} {f : Fpage} (hb : PageBits bits) (h : Block bits i f b)
    {base : Nat} (hal : base % 2 ^ bits = 0) (hlt : b < base) (hle : base ≤ fpEnd f) :
    Span bits b (base - 1) := by
  have hs := h.span hb
  have hpage := hb.two_le
  have hgap := aligned_gap hs.base_aligned hal hlt
  have hfits := hs.fits
  refine ⟨hs.base_aligned, ?_, by omega, by omega, fun h0 => ?_⟩
  · rw [show base - 1 + 1 = base by omega]
    exact hal
  · have := hs.half h0
    omega

/-- The part of a block above an aligned address. -/
theorem Block.high_span {i b : Nat} {f : Fpage} (hb : PageBits bits) (h : Block bits i f b)
    {end_ : Nat} (hal : (end_ + 1) % 2 ^ bits = 0) (hlt : end_ < fpEnd f) :
    Span bits (end_ + 1) (fpEnd f) := by
  have hs := h.span hb
  have hpage := hb.two_le
  have hgap := aligned_gap hal hs.end_aligned (by omega)
  exact ⟨hal, hs.end_aligned, by omega, hs.fits, fun h0 => absurd h0 (Nat.succ_ne_zero _)⟩

include hb

/-- **`sys$fpage_free_extra`.** -/
theorem fpageFreeExtra_wp (s : σ) (hinv : C.Inv s) (ha : AInv bits (E.get s)) {base end_ i b : Nat}
    {f : Fpage} (hp : Paged bits base end_) (hf : Block bits i f b)
    (hmeet : max base b < min end_ (fpEnd f)) :
    Wp J (fpageFreeExtra E bits f base end_) s fun _ s' => C.Inv s' ∧ AInv bits (E.get s') ∧
      Gained C s s' (trimmed base end_ b (fpEnd f)) ∧
      Appends (E.get s) (E.get s')
        (fun x => span (E.get s).base (E.get s).rangeSize x + trimmed base end_ b (fpEnd f) x)
        ((E.get s).rangeSize + ((base - b) + (fpEnd f - end_))) := by
  have hfend : wordAdd (l4Address f) (wordSub (l4Size f) 1) = fpEnd f := rfl
  have hfits := (hf.span hb).fits
  rw [fpageFreeExtra, hf.address hb]
  -- the second half, from the state after the first one
  have hhigh : ∀ s₁, C.Inv s₁ → AInv bits (E.get s₁) →
      Gained C s s₁ (span b (base - b)) →
      Appends (E.get s) (E.get s₁)
        (fun x => span (E.get s).base (E.get s).rangeSize x + span b (base - b) x)
        ((E.get s).rangeSize + (base - b)) →
      Wp J (onlyIf (fpEnd f > end_) (fpageFreeChunk E bits (wordAdd end_ 1) (fpEnd f))) s₁
        fun _ s' => C.Inv s' ∧ AInv bits (E.get s') ∧
          Gained C s s' (trimmed base end_ b (fpEnd f)) ∧
          Appends (E.get s) (E.get s')
            (fun x => span (E.get s).base (E.get s).rangeSize x + trimmed base end_ b (fpEnd f) x)
            ((E.get s).rangeSize + ((base - b) + (fpEnd f - end_))) := by
    intro s₁ h1 h2 h3 h4
    refine wp_onlyIf (fun hgt => ?_) fun hle => ?_
    · have hadd : wordAdd end_ 1 = end_ + 1 := by
        rw [wordAdd, Nat.mod_eq_of_lt (by omega)]
      have hsz : fpEnd f + 1 - (end_ + 1) = fpEnd f - end_ := by omega
      rw [hadd]
      refine (fpageFreeChunk_wp hb C s₁ h1 h2
        (hf.high_span hb hp.end_aligned hgt)).mono ?_
      rintro _ s₂ ⟨k1, k2, k3, k4⟩
      rw [hsz] at k3
      refine ⟨k1, k2, h3.trans k3, ?_⟩
      rw [Refilled, hsz] at k4
      rw [← Nat.add_assoc]
      refine h4.trans k4 (fun x => ?_) (fun x => ?_) (Nat.le_refl _)
      · rw [trimmed]
        omega
      · have := h4.range x
        rw [trimmed]
        omega
    · have hz : fpEnd f - end_ = 0 := by omega
      have htr : ∀ x, trimmed base end_ b (fpEnd f) x = span b (base - b) x := fun x => by
        rw [trimmed, hz, span_zero, Nat.add_zero]
      refine ⟨h1, h2, h3.trans (Gained.of_zero C fun x => by rw [hz, span_zero]), ?_⟩
      rw [hz]
      simpa only [htr, Nat.add_zero] using h4
  rw [hf.address hb] at hfend
  rw [hfend]
  refine wp_bind (wp_onlyIf (fun hlt => ?_) fun hge => ?_)
  · have hsub : wordSub base 1 = base - 1 := by
      rw [wordSub, show base + (wordSize - 1) = base - 1 + wordSize by
        simp only [wordSize]; omega, Nat.add_mod_right, Nat.mod_eq_of_lt (by omega)]
    have hsz : base - 1 + 1 - b = base - b := by omega
    rw [hsub]
    refine (fpageFreeChunk_wp hb C s hinv ha
      (hf.low_span hb hp.base_aligned hlt (by omega))).mono ?_
    rintro _ s₁ ⟨k1, k2, k3, k4⟩
    rw [hsz] at k3
    rw [Refilled, hsz] at k4
    exact hhigh s₁ k1 k2 k3 k4
  · have hz : base - b = 0 := by omega
    refine hhigh s hinv ha (Gained.of_zero C fun x => by rw [hz, span_zero]) ?_
    simpa only [hz, span_zero, Nat.add_zero] using Appends.refl (E.get s)

omit hb in
/-- Memory may have left the account, but when no node is turned down only memory of
    `[base, end_]`. -/
def Removed (C : Contract bits E J) (base end_ : Nat) (s s' : σ) : Prop :=
  (∀ x, C.acct s' x ≤ C.acct s x) ∧
    (C.reliable → ∀ x, ¬ (base ≤ x ∧ x ≤ end_) → C.acct s' x = C.acct s x)

omit hb in
theorem Removed.refl (base end_ : Nat) (s : σ) : Removed C base end_ s s :=
  ⟨fun _ => Nat.le_refl _, fun _ _ _ => rfl⟩

omit hb in
theorem Removed.trans {C : Contract bits E J} {base end_ : Nat} {s s' s'' : σ}
    (h : Removed C base end_ s s') (h' : Removed C base end_ s' s'') : Removed C base end_ s s'' :=
  ⟨fun x => Nat.le_trans (h'.1 x) (h.1 x), fun hr x hx => (h'.2 hr x hx).trans (h.2 hr x hx)⟩

/-- Before node `p` of list `i` nothing meets `[base, end_]`, and neither does the internal
    range. -/
structure SweptTo (base end_ i p : Nat) (a : FpageAlloc) : Prop where
  range : Off base end_ (span a.base a.rangeSize)
  lists : ∀ j < i, ∀ f ∈ a.flist j, Off base end_ fun x => fpageSpan x f
  front : ∀ f ∈ (a.flist i).take p, Off base end_ fun x => fpageSpan x f

omit hb in
theorem SweptTo.next {base end_ i p : Nat} {a : FpageAlloc} (h : SweptTo base end_ i p a)
    (hp : (a.flist i).length ≤ p) : SweptTo base end_ (i + 1) 0 a := by
  refine ⟨h.range, fun j hj f hf => ?_, fun f hf => absurd hf List.not_mem_nil⟩
  by_cases hji : j = i
  · subst hji
    exact h.front f (by rw [List.take_of_length_le hp]; exact hf)
  · exact h.lists j (by omega) f hf

omit hb in
/-- In front of a node nothing changes when it is taken off and others are put behind the list. -/
theorem take_eraseIdx_append {l t : List Fpage} {p : Nat} (hp : p < l.length) :
    (l.eraseIdx p ++ t).take p = l.take p := by
  rw [List.eraseIdx_eq_take_drop_succ, List.append_assoc,
    List.take_left' (List.length_take_of_le (Nat.le_of_lt hp))]

omit hb in
/-- A node is taken off, and what does not meet the range is put into the lists. -/
theorem SweptTo.remove {base end_ i p n : Nat} {a a' : FpageAlloc} {d : Nat → Nat}
    (h : SweptTo base end_ i p a) (hp : p < (a.flist i).length) (hd : Off base end_ d)
    (happ : Appends (a.relist i ((a.flist i).eraseIdx p)) a' d n) :
    SweptTo base end_ i p a' ∧
      ((a.flist i).length ≤ p + 1 → SweptTo base end_ (i + 1) 0 a') := by
  have hlists : (a.relist i ((a.flist i).eraseIdx p)).flist =
      Function.update a.flist i ((a.flist i).eraseIdx p) := rfl
  obtain ⟨t, ht, hin⟩ := happ.lists i
  rw [hlists, Function.update_self] at ht
  have hswept : SweptTo base end_ i p a' := by
    refine ⟨hd.of_le happ.range, fun j hj g hg => ?_, fun g hg => ?_⟩
    · obtain ⟨t', ht', hin'⟩ := happ.lists j
      rw [ht', hlists, Function.update_of_ne (by omega)] at hg
      rcases List.mem_append.mp hg with hg | hg
      · exact h.lists j hj g hg
      · exact hd.of_le (hin' g hg)
    · rw [ht, take_eraseIdx_append hp] at hg
      exact h.front g hg
  refine ⟨hswept, fun hlast => ⟨hswept.range, fun j hj g hg => ?_, fun g hg =>
    absurd hg List.not_mem_nil⟩⟩
  by_cases hji : j = i
  · subst hji
    rw [ht, List.eraseIdx_eq_take_drop_succ, List.drop_eq_nil_of_le hlast, List.append_nil] at hg
    rcases List.mem_append.mp hg with hg | hg
    · exact h.front g hg
    · exact hd.of_le (hin g hg)
  · exact hswept.lists j (by omega) g hg

/-- A node that is passed by does not meet the range. -/
theorem Block.off_of_not_meet {base end_ i b : Nat} {f : Fpage} (hp : Paged bits base end_)
    (hf : Block bits i f b) (h : ¬ max base b < min end_ (fpEnd f)) :
    Off base end_ fun x => fpageSpan x f := by
  intro x h1 h2
  show fpageSpan x f = 0
  have hs := hf.span hb
  have hend := hf.fpEnd_eq hb
  have hpage := hb.two_le
  have hgap := aligned_gap hs.base_aligned hs.end_aligned (by have := hs.lt; omega)
  have hgap' := aligned_gap hp.base_aligned hp.end_aligned (by omega)
  rw [hf.span_eq hb]
  refine span_eq_zero.mpr fun hx => ?_
  -- two aligned ranges with an address in common share a whole page
  rcases Nat.lt_or_ge base (fpEnd f) with h3 | h3
  · rcases Nat.lt_or_ge b end_ with h4 | h4
    · omega
    · have : end_ + 1 = b + 1 := by omega
      have := aligned_gap hs.base_aligned hp.end_aligned (by omega)
      omega
  · have := aligned_gap hp.base_aligned hs.end_aligned (by omega)
    omega

omit hb in
theorem AInv.relist_eraseIdx {a : FpageAlloc} (ha : AInv bits a) (i p : Nat) :
    AInv bits (a.relist i ((a.flist i).eraseIdx p)) := by
  refine ⟨fun j g hg => ?_, ha.range⟩
  have hlists : (a.relist i ((a.flist i).eraseIdx p)).flist =
      Function.update a.flist i ((a.flist i).eraseIdx p) := rfl
  rw [hlists] at hg
  by_cases hj : j = i
  · subst hj
    rw [Function.update_self] at hg
    exact ha.filed j g (List.mem_of_mem_eraseIdx hg)
  · rw [Function.update_of_ne hj] at hg
    exact ha.filed j g hg

/-- A node that leaves its list leaves the account. -/
theorem acct_relist_eraseIdx {i p b : Nat} {f : Fpage} (s : σ) (hi : i < maxFpageOrder + 1)
    (hget : ((E.get s).flist i)[p]? = some f) (hf : Block bits i f b) (x : Nat) :
    C.acct (E.set ((E.get s).relist i (((E.get s).flist i).eraseIdx p)) s) x +
      span b (fpEnd f + 1 - b) x = C.acct s x := by
  have hset := C.acct_set ((E.get s).relist i (((E.get s).flist i).eraseIdx p)) s x
  have htot := total_update (fpageSpan x) (E.get s).flist (((E.get s).flist i).eraseIdx p) hi
  have herase := weight_eraseIdx (w := fpageSpan x) hget
  have hown : own ((E.get s).relist i (((E.get s).flist i).eraseIdx p)) x =
      total (fpageSpan x) (Function.update (E.get s).flist i (((E.get s).flist i).eraseIdx p))
        (maxFpageOrder + 1) + span (E.get s).base (E.get s).rangeSize x := rfl
  rw [hf.span_eq hb] at herase
  rw [hown, own] at hset
  rw [hf.fpEnd_eq hb, Nat.add_sub_cancel_left]
  omega

/-- Taking a node off a list and trimming it. -/
theorem removeNode_wp {base end_ i p b : Nat} {f : Fpage} (hp : Paged bits base end_) (s : σ)
    (hinv : C.Inv s) (ha : AInv bits (E.get s)) (hi : i < maxFpageOrder + 1)
    (hget : ((E.get s).flist i)[p]? = some f) (hf : Block bits i f b)
    (hmeet : max base b < min end_ (fpEnd f)) :
    Wp J (removeNode E bits base end_ i p f) s fun _ s' => C.Inv s' ∧ AInv bits (E.get s') ∧
      Removed C base end_ s s' ∧
      weight l4Size (((E.get s').flist i).drop p) + (E.get s').rangeSize <
        weight l4Size (((E.get s).flist i).drop p) + (E.get s).rangeSize ∧
      (SweptTo base end_ i p (E.get s) → SweptTo base end_ i p (E.get s') ∧
        (((E.get s).flist i).length ≤ p + 1 → SweptTo base end_ (i + 1) 0 (E.get s'))) := by
  have hlen : p < ((E.get s).flist i).length := by
    by_contra hc
    rw [List.getElem?_eq_none (by omega)] at hget
    exact Option.some_ne_none _ hget.symm
  have hfend := hf.fpEnd_eq hb
  refine wp_bind (wp_modify ?_)
  show Wp J (E.slabFree >>= fun _ => fpageFreeExtra E bits f base end_)
    (E.set ((E.get s).relist i (((E.get s).flist i).eraseIdx p)) s) _
  refine wp_bind ((C.slabFree _ (C.inv_set _ _ hinv)).mono ?_)
  rintro _ s₁ ⟨h1, h2, h3⟩
  rw [C.get_set] at h2
  have hlists : (E.get s₁).flist =
      Function.update (E.get s).flist i (((E.get s).flist i).eraseIdx p) := by rw [h2]; rfl
  have hlist : (E.get s₁).flist i = ((E.get s).flist i).eraseIdx p := by
    rw [hlists, Function.update_self]
  have hrange : (E.get s₁).rangeSize = (E.get s).rangeSize := by rw [h2]; rfl
  have hbase : (E.get s₁).base = (E.get s).base := by rw [h2]; rfl
  have ha₁ : AInv bits (E.get s₁) := by
    rw [h2]
    exact ha.relist_eraseIdx i p
  have hacct₁ : ∀ x, C.acct s₁ x + span b (fpEnd f + 1 - b) x = C.acct s x := by
    intro x
    rw [h3]
    exact acct_relist_eraseIdx hb C s hi hget hf x
  refine (fpageFreeExtra_wp hb C s₁ h1 ha₁ hp hf hmeet).mono ?_
  rintro _ s' ⟨k1, k2, k3, k4⟩
  have htake : ((E.get s').flist i).take p = ((E.get s).flist i).take p := by
    obtain ⟨t, ht, -⟩ := k4.lists i
    rw [ht, hlist, take_eraseIdx_append hlen]
  refine ⟨k1, k2, ⟨fun x => ?_, fun hr x hx => ?_⟩, ?_, fun hsw => ?_⟩
  · have e1 := k3.1 x
    have e2 := hacct₁ x
    have e3 := trimmed_le x hmeet
    omega
  · have e1 := k3.2 hr x
    have e2 := hacct₁ x
    have e3 := trimmed_eq hmeet hx
    omega
  · have e1 := k4.bytes i
    have e2 := weight_take_add_drop l4Size ((E.get s').flist i) p
    have e3 := weight_take_add_drop l4Size ((E.get s).flist i) p
    have e4 := weight_eraseIdx (w := l4Size) hget
    rw [hlist, hrange] at e1
    rw [hf.size hb] at e4
    rw [htake] at e2
    omega
  · rw [h2] at k4
    refine hsw.remove hlen (fun x hx hx' => ?_) k4
    exact Nat.add_eq_zero_iff.mpr ⟨hsw.range x hx hx', trimmed_off base end_ b (fpEnd f) x hx hx'⟩

/-- The inner loop of `sys$fpage_remove_chunk`. -/
theorem removeLoop_wp {base end_ i : Nat} (hp : Paged bits base end_) (hi : i < maxFpageOrder + 1) :
    ∀ (fuel p : Nat) (s : σ), C.Inv s → AInv bits (E.get s) →
      weight l4Size (((E.get s).flist i).drop p) + (E.get s).rangeSize < fuel →
      Wp J (removeLoop E bits base end_ i fuel p) s fun _ s' => C.Inv s' ∧ AInv bits (E.get s') ∧
        Removed C base end_ s s' ∧
        (SweptTo base end_ i p (E.get s) → SweptTo base end_ (i + 1) 0 (E.get s')) := by
  intro fuel
  induction fuel with
  | zero => intro p s _ _ hf; omega
  | succ fuel ih =>
    intro p s hinv ha hfuel
    refine wp_bind (wp_alloc ?_)
    cases hget : ((E.get s).flist i)[p]? with
    | none =>
      exact wp_pure ⟨hinv, ha, Removed.refl C base end_ s,
        fun h => h.next (List.getElem?_eq_none_iff.mp hget)⟩
    | some f =>
      obtain ⟨b, hf⟩ := ha.filed i f (List.mem_of_getElem? hget)
      have hlen : p < ((E.get s).flist i).length := by
        by_contra hc
        rw [List.getElem?_eq_none (by omega)] at hget
        exact Option.some_ne_none _ hget.symm
      have hfend : wordAdd b (wordSub (l4Size f) 1) = fpEnd f := by rw [fpEnd, hf.address hb]
      simp only [hf.address hb, hfend]
      refine wp_ite (fun hmeet => ?_) fun hmiss => ?_
      · refine wp_bind ((removeNode_wp hb C hp s hinv ha hi hget hf hmeet).mono ?_)
        rintro _ s₁ ⟨k1, k2, k3, k4, k5⟩
        refine wp_ite (fun hlast => ?_) fun _ => ?_
        · exact wp_pure ⟨k1, k2, k3, fun h => (k5 h).2 (of_decide_eq_true hlast)⟩
        · refine (ih p s₁ k1 k2 (by omega)).mono ?_
          rintro _ s' ⟨h1, h2, h3, h4⟩
          exact ⟨h1, h2, k3.trans h3, fun h => h4 (k5 h).1⟩
      · -- the node stays
        have hdrop : weight l4Size (((E.get s).flist i).drop p) =
            l4Size f + weight l4Size (((E.get s).flist i).drop (p + 1)) := by
          rw [← List.getElem_cons_drop hlen, weight_cons,
            (List.getElem?_eq_some_iff.mp hget).2]
        have hpos : 0 < l4Size f := by
          rw [hf.size hb]
          positivity
        have hsw : SweptTo base end_ i p (E.get s) → SweptTo base end_ i (p + 1) (E.get s) :=
          fun h => ⟨h.range, h.lists, fun g hg => by
            rw [List.take_add_one, hget] at hg
            rcases List.mem_append.mp hg with hg | hg
            · exact h.front g hg
            · obtain rfl : g = f := by simpa using hg
              exact hf.off_of_not_meet hb hp hmiss⟩
        refine wp_ite (fun hlast => ?_) fun _ => ?_
        · exact wp_pure ⟨hinv, ha, Removed.refl C base end_ s,
            fun h => (hsw h).next (of_decide_eq_true hlast)⟩
        · refine (ih (p + 1) s hinv ha (by omega)).mono ?_
          rintro _ s' ⟨h1, h2, h3, h4⟩
          exact ⟨h1, h2, h3, fun h => h4 (hsw h)⟩

/-- The outer loop of `sys$fpage_remove_chunk`. -/
theorem removeLists_wp {base end_ : Nat} (hp : Paged bits base end_) :
    ∀ (n i : Nat) (s : σ), C.Inv s → AInv bits (E.get s) → n + i ≤ maxFpageOrder + 1 →
      Wp J (removeLists E bits base end_ n i) s fun _ s' => C.Inv s' ∧ AInv bits (E.get s') ∧
        Removed C base end_ s s' ∧
        (SweptTo base end_ i 0 (E.get s) → SweptTo base end_ (n + i) 0 (E.get s')) := by
  intro n
  induction n with
  | zero =>
    intro i s hinv ha _
    exact wp_pure ⟨hinv, ha, Removed.refl C base end_ s, fun h => by rwa [Nat.zero_add]⟩
  | succ n ih =>
    intro i s hinv ha hle
    have hrs : (E.get s).rangeSize ≤ (E.get s).end_ + 1 - (E.get s).base := by
      rw [FpageAlloc.rangeSize]
      split <;> omega
    refine wp_bind (wp_alloc (wp_bind ((removeLoop_wp hb C hp (by omega) _ 0 s hinv ha
      (by rw [List.drop_zero]; omega)).mono ?_)))
    rintro _ s₁ ⟨h1, h2, h3, h4⟩
    refine (ih (i + 1) s₁ h1 h2 (by omega)).mono ?_
    rintro _ s' ⟨k1, k2, k3, k4⟩
    refine ⟨k1, k2, h3.trans k3, fun h => ?_⟩
    rw [show n + 1 + i = n + (i + 1) by omega]
    exact k4 (h4 h)

/-- **`sys$fpage_remove_chunk`.**  Only memory of the range leaves the account, and when the
    internal range does not meet it, none of it is left in the allocator. -/
theorem fpageRemoveChunk_wp {base end_ : Nat} (hp : Paged bits base end_) (s : σ)
    (hinv : C.Inv s) (ha : AInv bits (E.get s)) :
    Wp J (fpageRemoveChunk E bits base end_) s fun _ s' => C.Inv s' ∧ AInv bits (E.get s') ∧
      Removed C base end_ s s' ∧
      (Off base end_ (span (E.get s).base (E.get s).rangeSize) → Off base end_ (own (E.get s'))) := by
  refine (removeLists_wp hb C hp (maxFpageOrder + 1) 0 s hinv ha (Nat.le_refl _)).mono ?_
  rintro _ s' ⟨h1, h2, h3, h4⟩
  refine ⟨h1, h2, h3, fun hoff x hlo hhi => ?_⟩
  have hsw := h4 ⟨hoff, fun j hj => absurd hj (Nat.not_lt_zero _),
    fun f hf => absurd hf List.not_mem_nil⟩
  rw [own, hsw.range x hlo hhi, total_eq_zero fun i hi f hf => hsw.lists i hi f hf x hlo hhi]

end

end FreeVMS.Alloc
