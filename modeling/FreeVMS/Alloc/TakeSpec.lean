import FreeVMS.Alloc.Spec
import Mathlib.Data.Nat.Log

/-!
# Taking memory out of the free lists

`sys$fpage_alloc` and the functions built on it, over an environment in which no request
for a node is turned down.
-/

namespace FreeVMS.Alloc

open Trace Cover

/-! ### The scans -/

/-- The order is the first one whose pages have the size. -/
theorem szOrder_spec (bits : Nat) {size : Nat} (hsize : size ≤ 2 ^ 63) :
    ∀ (fuel order : Nat), order + bits ≤ 63 → 63 - (order + bits) < fuel →
      ∃ o, szOrder bits size fuel order = some o ∧ o + bits ≤ 63 ∧ order ≤ o ∧
        size ≤ 2 ^ (o + bits) ∧ ∀ k, order ≤ k → k < o → 2 ^ (k + bits) < size := by
  intro fuel
  induction fuel with
  | zero => intro order _ hf; omega
  | succ fuel ih =>
    intro order hle hf
    have hshl : wordShl 1 (order + bits) = 2 ^ (order + bits) := by
      rw [wordShl, Nat.mod_eq_of_lt (show order + bits < 64 by omega), Nat.one_mul]
      exact Nat.mod_eq_of_lt (Nat.pow_lt_pow_right (by decide) (by omega))
    rw [szOrder, hshl]
    by_cases hlt : 2 ^ (order + bits) < size
    · rw [if_pos hlt]
      have hne : order + bits ≠ 63 := by
        intro heq
        rw [heq] at hlt
        omega
      obtain ⟨o, ho, h63, hoo, hfit, hfirst⟩ := ih (order + 1) (by omega) (by omega)
      refine ⟨o, ho, h63, by omega, hfit, fun k hk hko => ?_⟩
      rcases Nat.eq_or_lt_of_le hk with rfl | hk
      · exact hlt
      · exact hfirst k hk hko
    · rw [if_neg hlt]
      exact ⟨order, rfl, hle, Nat.le_refl _, Nat.le_of_not_lt hlt, fun k hk hko => by omega⟩

theorem scanUp_spec (flist : Nat → List Fpage) :
    ∀ (n i : Nat), scanUp flist n i ≤ i + n ∧
      (scanUp flist n i < i + n → flist (scanUp flist n i) ≠ []) ∧
      ∀ k, i ≤ k → k < scanUp flist n i → flist k = [] := by
  intro n
  induction n with
  | zero =>
    exact fun i => ⟨Nat.le_refl _, fun h => absurd h (by simp [scanUp]),
      fun k hk hlt => absurd hlt (by simpa [scanUp] using hk)⟩
  | succ n ih =>
    intro i
    rw [scanUp]
    by_cases he : (flist i).isEmpty = true
    · rw [if_pos he]
      obtain ⟨h1, h2, h3⟩ := ih (i + 1)
      refine ⟨by omega, fun h => h2 (by omega), fun k hk hlt => ?_⟩
      rcases Nat.eq_or_lt_of_le hk with rfl | hk
      · exact List.isEmpty_iff.mp he
      · exact h3 k hk hlt
    · rw [if_neg he]
      exact ⟨by omega, fun _ hnil => he (by rw [hnil]; rfl), fun k hk hlt => by omega⟩

theorem scanUp_ge (flist : Nat → List Fpage) : ∀ (n i : Nat), i ≤ scanUp flist n i := by
  intro n
  induction n with
  | zero => exact fun i => Nat.le_refl _
  | succ n ih =>
    intro i
    rw [scanUp]
    split
    · exact Nat.le_of_succ_le (ih (i + 1))
    · exact Nat.le_refl _

theorem scanDown_spec (flist : Nat → List Fpage) :
    ∀ i, match scanDown flist i with
      | some k => k ≤ i ∧ flist k ≠ [] ∧ ∀ j ≤ i, k < j → flist j = []
      | none => ∀ j ≤ i, flist j = [] := by
  intro i
  induction i with
  | zero =>
    rw [scanDown]
    by_cases he : (flist 0).isEmpty = true
    · rw [if_pos he]
      intro j hj
      obtain rfl : j = 0 := by omega
      exact List.isEmpty_iff.mp he
    · rw [if_neg he]
      exact ⟨Nat.le_refl _, fun hnil => he (by rw [hnil]; rfl), fun j hj hlt => by omega⟩
  | succ i ih =>
    rw [scanDown]
    by_cases he : (flist (i + 1)).isEmpty = true
    · rw [if_pos he]
      cases hs : scanDown flist i with
      | some k =>
        rw [hs] at ih
        refine ⟨by have := ih.1; omega, ih.2.1, fun j hj hlt => ?_⟩
        rcases Nat.lt_or_ge i j with hij | hji
        · rw [show j = i + 1 by omega]
          exact List.isEmpty_iff.mp he
        · exact ih.2.2 j hji hlt
      | none =>
        rw [hs] at ih
        intro j hj
        by_cases heq : j = i + 1
        · subst heq
          exact List.isEmpty_iff.mp he
        · exact ih j (by omega)
    · rw [if_neg he]
      exact ⟨Nat.le_refl _, fun hnil => he (by rw [hnil]; rfl), fun j hj hlt => by omega⟩

/-- One scan after the other: upwards from the requested order, and down from where that has stopped. -/
theorem scans_spec (flist : Nat → List Fpage) {order : Nat} (hom : order ≤ maxFpageOrder) :
    match scanDown flist (scanUp flist (maxFpageOrder - order) order) with
    | some i => i ≤ maxFpageOrder ∧ flist i ≠ [] ∧
        (i < order → ∀ k, order ≤ k → k ≤ maxFpageOrder → flist k = [])
    | none => ∀ i ≤ maxFpageOrder, flist i = [] := by
  obtain ⟨hup, hupe, hempty⟩ := scanUp_spec flist (maxFpageOrder - order) order
  have hstop := scanUp_ge flist (maxFpageOrder - order) order
  have hdown := scanDown_spec flist (scanUp flist (maxFpageOrder - order) order)
  cases hs : scanDown flist (scanUp flist (maxFpageOrder - order) order) with
  | none =>
    rw [hs] at hdown
    refine fun i hi => hdown i ?_
    -- the upward scan stops below the last list only at a list in use
    by_contra hc
    exact hupe (by omega) (hdown _ (Nat.le_refl _))
  | some i =>
    rw [hs] at hdown
    refine ⟨by have := hdown.1; omega, hdown.2.1, fun hio k hok hk => ?_⟩
    rcases Nat.lt_or_ge k (scanUp flist (maxFpageOrder - order) order) with hlt | hge
    · exact hempty k hok hlt
    · -- the upward scan has stopped at the end, since what it stops at before is in use
      by_contra hne
      have htop := hdown.2.2 (scanUp flist (maxFpageOrder - order) order) (Nat.le_refl _)
      rcases Nat.lt_or_ge (scanUp flist (maxFpageOrder - order) order)
        (order + (maxFpageOrder - order)) with hearly | hlate
      · exact hupe hearly (htop (by omega))
      · obtain rfl : k = scanUp flist (maxFpageOrder - order) order := by omega
        exact hne (htop (by omega))

/-- The flexpage that `sys$fpage_alloc` takes off the lists. -/
def taken (bits size : Nat) (flist : Nat → List Fpage) : Option Fpage :=
  match szOrder bits size 64 0 with
  | none => none
  | some order =>
      match scanDown flist (scanUp flist (maxFpageOrder - order) order) with
      | none => none
      | some i => (flist i).head?

/-- The flexpages of a list are blocks. -/
def Blocks (bits : Nat) (l : List Fpage) : Prop := ∀ f ∈ l, ∃ i b, Block bits i f b

/-! ### Backing a range -/

/-- Laid one after the other from `virt` on, each flexpage begins at a multiple of its size. -/
def Aligned : Nat → List Fpage → Prop
  | _, [] => True
  | virt, f :: l => virt % l4Size f = 0 ∧ Aligned (virt + l4Size f) l

/-- The flexpages back `[start, end_]`: together they have its length. -/
structure Backs (start end_ : Nat) (l : List Fpage) : Prop where
  sizes : start + weight l4Size l = end_ + 1
  aligned : Aligned start l

/-- `sys$fpage_alloc_list` on its way through `[start, end_]`, whole pages from the beginning to the end:
    the list backs what lies below `base`, which wraps around at the end of the address space. -/
structure Partway (bits start end_ base : Nat) (l : List Fpage) : Prop where
  word : end_ < wordSize
  end_aligned : (end_ + 1) % 2 ^ bits = 0
  base_eq : base = (start + weight l4Size l) % wordSize
  base_aligned : (start + weight l4Size l) % 2 ^ bits = 0
  le : start + weight l4Size l ≤ end_ + 1
  aligned : Aligned start l

section

variable {bits start end_ base : Nat} {l : List Fpage}

theorem aligned_snoc {f : Fpage} : ∀ {virt : Nat} {l : List Fpage}, Aligned virt l →
    (virt + weight l4Size l) % l4Size f = 0 → Aligned virt (l ++ [f]) := by
  intro virt l
  induction l generalizing virt with
  | nil =>
    intro _ h
    exact ⟨by simpa using h, trivial⟩
  | cons g l ih =>
    intro hl h
    rw [weight_cons, ← Nat.add_assoc] at h
    exact ⟨hl.1, ih hl.2 h⟩

theorem Aligned.split : ∀ {front : List Fpage} {virt : Nat} {f : Fpage} {rest : List Fpage},
    Aligned virt (front ++ f :: rest) → (virt + weight l4Size front) % l4Size f = 0 := by
  intro front
  induction front with
  | nil => exact fun h => h.1
  | cons g front ih =>
    intro virt f rest h
    rw [weight_cons, ← Nat.add_assoc]
    exact ih h.2

variable (hb : PageBits bits)

include hb

/-- A flexpage whose size does not go into its field has none. -/
theorem l4Size_fpageLog2_wrap {a : Nat} (ha : a % 2 ^ bits = 0) : l4Size (l4FpageLog2 a 64) = 0 := by
  obtain ⟨q, rfl⟩ : 2 ^ 10 ∣ a := (two_pow_dvd_of_le hb.ge).trans (Nat.dvd_of_mod_eq_zero ha)
  have hlog : l4SizeLog2 (l4FpageLog2 (2 ^ 10 * q) 64) = 0 := by
    simp only [l4SizeLog2, l4FpageLog2]
    omega
  rw [l4Size, if_pos hlog]

/-- **The request.**  The pages that `sys$fpage_alloc_list` asks for fit at `base`, of the order asked for
    and of every lower one. -/
theorem request_fits {order : Nat} (hbase : base % 2 ^ bits = 0) (hle : base + 2 ^ bits ≤ end_ + 1)
    (hword : end_ < wordSize)
    (hord : szOrder bits (l4Size (biggestFpage bits base base end_)) 64 0 = some order) :
    base % 2 ^ (order + bits) = 0 ∧ base + 2 ^ (order + bits) ≤ end_ + 1 := by
  have hge := hb.ge
  have hle30 := hb.le
  have hpos : 0 < 2 ^ bits := by positivity
  have hnone : l4Size (biggestFpage bits base base end_) = 0 →
      base % 2 ^ (order + bits) = 0 ∧ base + 2 ^ (order + bits) ≤ end_ + 1 := by
    intro hz
    rw [hz, szOrder, if_neg (Nat.not_lt_zero _)] at hord
    obtain rfl := Option.some.inj hord
    rw [Nat.zero_add]
    exact ⟨hbase, hle⟩
  rw [biggestFpage] at hord hnone
  by_cases hnil : end_ < base ∨ wordAdd (wordSub end_ base) 1 < 2 ^ bits
  · rw [if_pos hnil] at hnone
    exact hnone rfl
  rw [if_neg hnil] at hord hnone
  rcases biggestBits_fits (show base < wordSize by omega) (64 - bits) bits (by omega) hbase hle with
    h64 | ⟨hbits, h64, hal, hfits⟩
  · simp only [h64] at hnone
    have hround : wordShl (wordShr base 64) 64 = base := by
      simp only [wordShl, wordShr, Nat.mod_self, Nat.pow_zero, Nat.div_one, Nat.mul_one]
      exact Nat.mod_eq_of_lt (by omega)
    rw [hround] at hnone
    exact hnone (l4Size_fpageLog2_wrap hb hbase)
  · generalize biggestBits base base end_ (64 - bits) bits = b at hbits h64 hal hfits hord
    simp only [wordShl_shr h64 (show base < wordSize by omega),
      Nat.div_mul_cancel (Nat.dvd_of_mod_eq_zero hal)] at hord
    have hsize : l4Size (l4FpageLog2 base b) = 2 ^ b := by
      rw [l4Size, l4SizeLog2_fpageLog2 (by omega) h64 hal, if_neg (by omega)]
    rw [hsize] at hord
    have hpow : 2 ^ b ≤ 2 ^ 63 := Nat.pow_le_pow_right (by decide) (by omega)
    obtain ⟨o, ho, -, -, -, hfirst⟩ := szOrder_spec bits hpow 64 0 (by omega) (by omega)
    obtain rfl : o = order := Option.some.inj (ho.symm.trans hord)
    have hob : o + bits ≤ b := by
      by_contra hgt
      have hlt := hfirst (b - bits) (Nat.zero_le _) (by omega)
      rw [show b - bits + bits = b by omega] at hlt
      exact Nat.lt_irrefl _ hlt
    have hsmall : 2 ^ (o + bits) ≤ 2 ^ b := Nat.pow_le_pow_right (by decide) hob
    exact ⟨aligned_of_le hob hal, by omega⟩

/-- `base` is at the end of the range when it is not below its last address. -/
theorem Partway.end_reached (h : Partway bits start end_ base l) (hge : ¬ base < end_) :
    Backs start end_ l := by
  have hword := h.word
  have hle := h.le
  have hpage := hb.two_le
  have heq := h.base_eq
  refine ⟨?_, h.aligned⟩
  by_contra hne
  have hgap := aligned_gap h.base_aligned h.end_aligned (by omega)
  rw [Nat.mod_eq_of_lt (by omega)] at heq
  omega

/-- Less than a page is left at the end of the address space only, or when the range is all of it. -/
theorem Partway.last_page (h : Partway bits start end_ base l) (hl : Blocks bits l) (hlt : base < end_)
    (hsmall : wordAdd (wordSub end_ base) 1 < 2 ^ bits) : l = [] ∨ Backs start end_ l := by
  have hword := h.word
  have hle := h.le
  have hpage := hb.two_le
  have heq := h.base_eq
  rcases Nat.eq_or_lt_of_le hle with hdone | hmore
  · exact .inr ⟨hdone, h.aligned⟩
  · left
    have hgap := aligned_gap h.base_aligned h.end_aligned hmore
    rw [Nat.mod_eq_of_lt (by omega)] at heq
    rw [wordSub_of_le (by omega) (by omega) (by omega), wordAdd] at hsmall
    have hwrap : wordSize ≤ end_ - base + 1 := by
      by_contra hno
      rw [Nat.mod_eq_of_lt (by omega)] at hsmall
      omega
    -- nothing has been taken
    cases l with
    | nil => rfl
    | cons f l =>
      obtain ⟨i, b, hblock⟩ := hl f List.mem_cons_self
      have hpos : 0 < 2 ^ (i + bits) := by positivity
      rw [weight_cons, hblock.size hb] at heq
      omega

/-- A flexpage of the order asked for or a lower one goes on where the list ends. -/
theorem Partway.next {order j b : Nat} {f : Fpage} (h : Partway bits start end_ base l)
    (hlt : base < end_) (hlarge : ¬ wordAdd (wordSub end_ base) 1 < 2 ^ bits)
    (hord : szOrder bits (l4Size (biggestFpage bits base base end_)) 64 0 = some order)
    (hj : j ≤ order) (hf : Block bits j f b) :
    Partway bits start end_ (wordAdd base (l4Size f)) (l ++ [f]) := by
  have hword := h.word
  have hle := h.le
  have hpage := hb.two_le
  have heq := h.base_eq
  have hmore : start + weight l4Size l < end_ + 1 := by
    refine Nat.lt_of_le_of_ne hle fun hdone => hlarge ?_
    rw [hdone] at heq
    have hend : end_ + 1 = wordSize := by
      by_contra hne
      rw [Nat.mod_eq_of_lt (by omega)] at heq
      omega
    rw [hend, Nat.mod_self] at heq
    rw [heq, wordSub_of_le (Nat.zero_le _) (Nat.zero_le _) (by omega), Nat.sub_zero, wordAdd, hend,
      Nat.mod_self]
    omega
  have hgap := aligned_gap h.base_aligned h.end_aligned hmore
  rw [Nat.mod_eq_of_lt (by omega)] at heq
  obtain ⟨hal, hfits⟩ := request_fits hb (by rw [heq]; exact h.base_aligned) (by omega) hword hord
  have hsmall : 2 ^ (j + bits) ≤ 2 ^ (order + bits) := Nat.pow_le_pow_right (by decide) (by omega)
  have hal' : base % 2 ^ (j + bits) = 0 := aligned_of_le (show j + bits ≤ order + bits by omega) hal
  have hweight : start + weight l4Size (l ++ [f]) = base + 2 ^ (j + bits) := by
    rw [weight_append, weight_cons, weight_nil, hf.size hb, heq]
    omega
  exact {
    word := hword
    end_aligned := h.end_aligned
    base_eq := by rw [hweight, hf.size hb, wordAdd]
    base_aligned := by
      rw [hweight, Nat.pow_add, Nat.add_mul_mod_self_right, heq]
      exact h.base_aligned
    le := by
      rw [hweight]
      omega
    aligned := aligned_snoc h.aligned (by rw [hf.size hb, ← heq]; exact hal') }

end

section

variable {ε σ : Type} {E : Env ε σ} {J : Judge ε Fault} {bits : Nat}
variable (hb : PageBits bits) (C : Contract bits E J) (hrel : C.reliable)

include hb hrel

/-- The upper halves go back to the lists, the lower part of the requested order is left. -/
theorem splitLoop_wp (order : Nat) :
    ∀ (fuel i : Nat) (f : Fpage) (b : Nat) (s : σ), Block bits i f b → i < fuel + order →
      0 < fuel → C.Inv s → AInv bits (E.get s) →
      Wp J (splitLoop E bits order fuel f) s fun f' s' => C.Inv s' ∧ AInv bits (E.get s') ∧
        ∃ j, j = min i order ∧ Block bits j f' b ∧
          (∀ x, C.acct s' x + span b (2 ^ (j + bits)) x = C.acct s x + span b (2 ^ (i + bits)) x) ∧
          listBytes (E.get s') + 2 ^ (j + bits) ≤ listBytes (E.get s) + 2 ^ (i + bits) := by
  intro fuel
  induction fuel with
  | zero => intro i f b s _ _ h0; omega
  | succ fuel ih =>
    intro i f b s hf hlt _ hinv ha
    rw [splitLoop, hf.order hb]
    refine wp_ite (fun hgt => ?_) fun _ => ?_
    · obtain ⟨i, rfl⟩ : ∃ k, i = k + 1 := ⟨i - 1, by omega⟩
      have hlow := hf.lower hb
      have hup := hf.upper hb
      refine wp_bind ((C.slabAlloc s hinv ha).mono ?_)
      rintro r s₁ ⟨hr, hinv₁, ha₁, hacct₁, hbytes₁⟩
      rw [hr hrel]
      refine wp_bind (wp_insertTail hb hlow ?_)
      have hacct₂ : ∀ x, C.acct (E.set ((E.get s₁).file i (buddy (l4FpageLog2 (l4Address f)
          (l4SizeLog2 f - 1)))) s₁) x = C.acct s x + span (b + 2 ^ (i + bits)) (2 ^ (i + bits)) x := by
        intro x
        have h := C.acct_eq_add (s := s₁) (own_file (E.get s₁) (buddy (l4FpageLog2 (l4Address f)
          (l4SizeLog2 f - 1))) hup.index_lt) x
        rw [h, hup.span_eq hb, hacct₁]
      have ha₂ : AInv bits ((E.get s₁).file i (buddy (l4FpageLog2 (l4Address f)
          (l4SizeLog2 f - 1)))) := ⟨ha₁.filed.file hup, ha₁.range⟩
      have hbytes₂ := listBytes_file (E.get s₁) (buddy (l4FpageLog2 (l4Address f)
        (l4SizeLog2 f - 1))) hup.index_lt
      rw [hup.size hb] at hbytes₂
      have hpow : 2 ^ (i + 1 + bits) = 2 ^ (i + bits) + 2 ^ (i + bits) := by ring
      refine (ih i _ b _ hlow (by omega) (by omega) (C.inv_set _ _ hinv₁)
        (by rw [C.get_set]; exact ha₂)).mono ?_
      rintro f' s' ⟨h1, h2, j, hj, h3, h4, h5⟩
      refine ⟨h1, h2, j, by omega, h3, fun x => ?_, ?_⟩
      · have := h4 x
        rw [hacct₂ x] at this
        rw [hpow, span_add]
        omega
      · rw [C.get_set, hbytes₂] at h5
        omega
    · exact wp_pure ⟨hinv, ha, i, by omega, hf, fun _ => rfl, Nat.le_refl _⟩

/-- **`sys$fpage_alloc`.**  Either nothing is in the lists, or a block leaves the account that
    lies in one of the blocks that were free.  It has the requested order, or a lower one when no
    list from that order on has a block. -/
theorem fpageAlloc_wp (s : σ) (hinv : C.Inv s) (ha : AInv bits (E.get s)) {size : Nat}
    (hsize : size ≤ 2 ^ 63) :
    Wp J (fpageAlloc E bits size) s fun f s' => C.Inv s' ∧ AInv bits (E.get s') ∧
      ((f = nilpage ∧ s' = s ∧ ∀ i ≤ maxFpageOrder, (E.get s).flist i = []) ∨
        ∃ j b, Block bits j f b ∧
          (∃ i g order, taken bits size (E.get s).flist = some g ∧ g ∈ (E.get s).flist i ∧
            Block bits i g b ∧ szOrder bits size 64 0 = some order ∧ j = min i order ∧
            (i < order → ∀ k, order ≤ k → k ≤ maxFpageOrder → (E.get s).flist k = [])) ∧
          (∀ x, C.acct s' x + span b (2 ^ (j + bits)) x = C.acct s x) ∧
          listBytes (E.get s') + 2 ^ (j + bits) ≤ listBytes (E.get s)) := by
  have hle := hb.le
  obtain ⟨order, hord, hob, -, -, -⟩ := szOrder_spec bits hsize 64 0 (by omega) (by omega)
  have hom : order ≤ maxFpageOrder := by simp only [maxFpageOrder]; omega
  rw [fpageAlloc, hord]
  refine wp_bind (wp_alloc ?_)
  have hscans := scans_spec (E.get s).flist hom
  cases hs : scanDown (E.get s).flist (scanUp (E.get s).flist (maxFpageOrder - order) order) with
  | none =>
    rw [hs] at hscans
    exact wp_pure ⟨hinv, ha, Or.inl ⟨rfl, rfl, hscans⟩⟩
  | some i =>
    rw [hs] at hscans
    obtain ⟨himax, hused, hnone⟩ := hscans
    have hi : i < maxFpageOrder + 1 := Nat.lt_succ_of_le himax
    cases hl : (E.get s).flist i with
    | nil => exact absurd hl hused
    | cons f rest =>
      obtain ⟨b, hblock⟩ := ha.filed i f (by rw [hl]; exact List.mem_cons_self)
      simp only [hl]
      refine wp_bind (wp_modify ?_)
      show Wp J (E.slabFree >>= fun _ => splitLoop E bits order 64 f)
        (E.set ((E.get s).relist i rest) s) _
      have hacct : ∀ x, C.acct (E.set ((E.get s).relist i rest) s) x +
          span b (2 ^ (i + bits)) x = C.acct s x := by
        intro x
        have h := C.acct_add_eq (s := s) (own_tail (E.get s) hl hi) x
        rwa [hblock.span_eq hb] at h
      have hbytes := listBytes_tail (E.get s) hl hi
      rw [hblock.size hb] at hbytes
      refine wp_bind ((C.slabFree _ (C.inv_set _ _ hinv)).mono ?_)
      rintro _ s₁ ⟨h1, h2, h3⟩
      rw [C.get_set] at h2
      have ha₁ : AInv bits (E.get s₁) := by
        rw [h2]
        exact ⟨ha.filed.tail hl, ha.range⟩
      have hsm := hblock.small
      refine (splitLoop_wp hb C hrel order 64 i f b s₁ hblock (by omega) (by omega) h1 ha₁).mono ?_
      rintro f' s' ⟨k1, k2, j, hj, k3, k4, k5⟩
      have htaken : taken bits size (E.get s).flist = some f := by
        simp only [taken, hord, hs, hl, List.head?_cons]
      refine ⟨k1, k2, Or.inr ⟨j, b, k3, ⟨i, f, order, htaken, by rw [hl]; exact List.mem_cons_self, hblock, rfl, hj, hnone⟩,
        fun x => ?_, ?_⟩⟩
      · have e1 := k4 x
        have e2 := hacct x
        rw [h3] at e1
        omega
      · rw [h2] at k5
        have : listBytes ((E.get s).relist i rest) + 2 ^ (i + bits) = listBytes (E.get s) := hbytes
        exact Nat.le_trans k5 (Nat.le_of_eq this)

omit hb hrel in
/-- A flexpage of the lists has room for `size` bytes and for every power of two below that. -/
def Roomy (size : Nat) (flist : Nat → List Fpage) : Prop :=
  ∃ i ≤ maxFpageOrder, ∃ f ∈ flist i, 2 ^ Nat.clog 2 size ≤ l4Size f

omit hrel in
/-- The flexpages with room are those of the requested order or a higher one. -/
theorem roomy_iff_order {flist : Nat → List Fpage} (hfiled : Filed bits flist) {size order : Nat}
    (hsize : size ≤ 2 ^ 63) (hord : szOrder bits size 64 0 = some order) :
    Roomy size flist ↔ ∃ i ≤ maxFpageOrder, order ≤ i ∧ flist i ≠ [] := by
  have hle := hb.le
  obtain ⟨o, ho, -, -, hfit, hfirst⟩ := szOrder_spec bits hsize 64 0 (by omega) (by omega)
  obtain rfl : o = order := Option.some.inj (ho.symm.trans hord)
  constructor
  · rintro ⟨i, hi, f, hf, hroom⟩
    obtain ⟨b, hblock⟩ := hfiled i f hf
    rw [hblock.size hb] at hroom
    refine ⟨i, hi, ?_, fun hnil => by rw [hnil] at hf; exact absurd hf List.not_mem_nil⟩
    by_contra hlt
    have hsmall := hfirst i (Nat.zero_le _) (by omega)
    have hclog := Nat.le_pow_clog (by decide : 1 < 2) size
    omega
  · rintro ⟨i, hi, hoi, hne⟩
    obtain ⟨f, rest, hl⟩ := List.exists_cons_of_ne_nil hne
    have hf : f ∈ flist i := by
      rw [hl]
      exact List.mem_cons_self
    obtain ⟨b, hblock⟩ := hfiled i f hf
    refine ⟨i, hi, f, hf, ?_⟩
    rw [hblock.size hb]
    have hclog : Nat.clog 2 size ≤ o + bits := Nat.clog_le_of_le_pow hfit
    exact Nat.pow_le_pow_right (by decide) (by omega)

/-- **`sys$fpage_alloc_chunk`.**  It turns the request down exactly when no flexpage has room, and
    what it returns is aligned to the power of two. -/
theorem fpageAllocChunk_wp (s : σ) (hinv : C.Inv s) (ha : AInv bits (E.get s)) {size : Nat}
    (hpage : size % 2 ^ bits = 0) (hsize : size ≤ 2 ^ 63) :
    Wp J (fpageAllocChunk E bits size) s fun mem s' => C.Inv s' ∧ AInv bits (E.get s') ∧
      ((mem = invalidAddr ∧ C.acct s' = C.acct s ∧ ¬ Roomy size (E.get s).flist) ∨
        (mem % 2 ^ bits = 0 ∧ mem + size < wordSize ∧
          (∀ x, C.acct s' x + span mem size x = C.acct s x) ∧ mem % 2 ^ Nat.clog 2 size = 0 ∧
          Roomy size (E.get s).flist)) := by
  refine wp_bind ((fpageAlloc_wp hb C hrel s hinv ha hsize).mono ?_)
  rintro f s₁ ⟨hinv₁, ha₁, ⟨rfl, rfl, hempty⟩ |
    ⟨j, b, hblock, ⟨i, g, order, -, hg, hgblock, hord, hj, hnone⟩, hacct, -⟩⟩
  · refine wp_ite (fun _ => wp_pure ⟨hinv, ha, Or.inl ⟨rfl, rfl, ?_⟩⟩) fun hno => absurd rfl hno
    rintro ⟨i, hi, f, hf, -⟩
    rw [hempty i hi] at hf
    exact absurd hf List.not_mem_nil
  · have hle := hb.le
    have hi : i ≤ maxFpageOrder := Nat.le_of_lt_succ hgblock.index_lt
    have hroomy := roomy_iff_order hb ha.filed hsize hord
    obtain ⟨o, ho, -, -, hfit, hfirst⟩ := szOrder_spec bits hsize 64 0 (by omega) (by omega)
    obtain rfl : o = order := Option.some.inj (ho.symm.trans hord)
    rw [hblock.not_nil hb, hblock.size hb, hblock.address hb]
    have hend := hblock.fpEnd_eq hb
    have hfits := hblock.fits
    have hspan := hblock.span hb
    have hlow : i < o → j = i := fun hio => hj.trans (Nat.min_eq_left hio.le)
    have hhigh : o ≤ i → j = o := fun hoi => hj.trans (Nat.min_eq_right hoi)
    clear hj
    -- a block that is large enough has the requested order
    have hlarge : ¬ 2 ^ (j + bits) < size → b % 2 ^ Nat.clog 2 size = 0 ∧ Roomy size (E.get s).flist := by
      intro hge
      have hoi : o ≤ i := by
        by_contra hlt
        rw [hlow (Nat.lt_of_not_le hlt)] at hge
        exact hge (hfirst i (Nat.zero_le _) (Nat.lt_of_not_le hlt))
      constructor
      · exact aligned_of_le (Nat.clog_le_of_le_pow hfit) (by rw [← hhigh hoi]; exact hblock.aligned)
      · exact hroomy.mpr ⟨i, hi, hoi, fun hnil => by rw [hnil] at hg; exact absurd hg List.not_mem_nil⟩
    refine wp_ite (fun h => absurd h Bool.false_ne_true) fun _ => ?_
    refine wp_ite (fun hlt => ?_) fun hge => wp_ite (fun hgt => ?_) fun hle => ?_
    · -- too small: the block goes back
      refine wp_bind ((fpageFreeChunk_wp hb C s₁ hinv₁ ha₁ hspan).mono ?_)
      rintro _ s₂ ⟨h1, h2, h3, -⟩
      refine wp_pure ⟨h1, h2, Or.inl ⟨rfl, funext fun x => ?_, fun hroom => ?_⟩⟩
      · have e1 := h3.2 hrel x
        have e2 := hacct x
        rw [hend, Nat.add_sub_cancel_left] at e1
        omega
      · obtain ⟨k, hk, hok, hne⟩ := hroomy.mp hroom
        have hio : i < o := by
          by_contra hge
          rw [hhigh (Nat.le_of_not_lt hge)] at hlt
          omega
        exact hne (hnone hio k hok hk)
    · -- too large: the rest goes back
      have hadd : wordAdd b size = b + size := by
        rw [wordAdd, Nat.mod_eq_of_lt (by omega)]
      rw [hadd]
      refine wp_bind ((fpageFreeChunk_wp hb C s₁ hinv₁ ha₁
        (hblock.rest_span hb hpage hgt)).mono ?_)
      rintro _ s₂ ⟨h1, h2, h3, -⟩
      refine wp_pure ⟨h1, h2, Or.inr ⟨hspan.base_aligned, by omega, fun x => ?_, hlarge hge⟩⟩
      have e1 := h3.2 hrel x
      have e2 := hacct x
      have hcut : 2 ^ (j + bits) = size + (fpEnd f + 1 - (b + size)) := by omega
      rw [hcut, span_add] at e2
      omega
    · obtain rfl : size = 2 ^ (j + bits) := by omega
      exact wp_pure ⟨hinv₁, ha₁, Or.inr ⟨hspan.base_aligned, hfits, hacct, hlarge hge⟩⟩

omit hrel

/-- **`sys$fpage_free_list`.** -/
theorem freeNodes_wp :
    ∀ (l : List Fpage) (s : σ), Blocks bits l → C.Inv s → AInv bits (E.get s) →
      Wp J (freeNodes E bits l) s fun _ s' => C.Inv s' ∧ AInv bits (E.get s') ∧
        Gained C s s' (coverList l) := by
  intro l
  induction l with
  | nil =>
    intro s _ hinv ha
    exact wp_pure ⟨hinv, ha, fun x => Nat.le_refl _, fun _ x => rfl⟩
  | cons f l ih =>
    intro s hl hinv ha
    obtain ⟨i, b, hblock⟩ := hl f List.mem_cons_self
    have hspan := hblock.span hb
    rw [freeNodes, hblock.address hb]
    refine wp_bind ((fpageFreeChunk_wp hb C s hinv ha hspan).mono ?_)
    rintro _ s₁ ⟨h1, h2, h3, -⟩
    refine wp_bind ((C.slabFree s₁ h1).mono ?_)
    rintro _ s₂ ⟨k1, k2, k3⟩
    refine (ih s₂ (fun g hg => hl g (List.mem_cons_of_mem _ hg)) k1 (by rw [k2]; exact h2)).mono ?_
    rintro _ s' ⟨m1, m2, m3⟩
    have hcover : coverList (f :: l) = fun x => span b (fpEnd f + 1 - b) x + coverList l x := by
      funext x
      rw [coverList_cons, hblock.span_eq hb, hblock.fpEnd_eq hb, Nat.add_sub_cancel_left]
    have hgained : Gained C s s₂ (span b (fpEnd f + 1 - b)) := by
      rw [Gained, k3]
      exact h3
    refine ⟨m1, m2, ?_⟩
    rw [hcover]
    exact hgained.trans m3

include hrel

/-- The loop of `sys$fpage_alloc_list`: what is in the list so far has left the account.  When it backs
    its part of a range, the loop goes on to the end of the range. -/
theorem allocListLoop_wp (end_ pagesize : Nat) :
    ∀ (fuel base : Nat) (l : List Fpage) (s : σ), Blocks bits l → C.Inv s → AInv bits (E.get s) →
      listBytes (E.get s) < fuel →
      Wp J (allocListLoop E bits end_ pagesize fuel base l) s fun l' s' => C.Inv s' ∧
        AInv bits (E.get s') ∧ Blocks bits l' ∧
        (∀ x, C.acct s' x + coverList l' x = C.acct s x + coverList l x) ∧
        ∀ start, pagesize = 2 ^ bits → Partway bits start end_ base l → l' = [] ∨ Backs start end_ l' := by
  intro fuel
  induction fuel with
  | zero => intro base l s _ _ _ hf; omega
  | succ fuel ih =>
    intro base l s hl hinv ha hf
    rw [allocListLoop]
    refine wp_ite (fun hlt => wp_ite (fun hsmall => ?_) fun hlarge => ?_) fun hge => ?_
    · refine wp_pure ⟨hinv, ha, hl, fun _ => rfl, fun start hpage hpart => ?_⟩
      rw [hpage] at hsmall
      exact hpart.last_page hb hl hlt hsmall
    · have hsize : l4Size (biggestFpage bits base base end_) ≤ 2 ^ 63 := by
        rw [l4Size]
        split
        · exact Nat.zero_le _
        · exact Nat.pow_le_pow_right (by decide) (by rw [l4SizeLog2]; omega)
      refine wp_bind ((fpageAlloc_wp hb C hrel s hinv ha hsize).mono ?_)
      rintro f s₁ ⟨hinv₁, ha₁, ⟨rfl, rfl, -⟩ |
        ⟨j, b, hblock, ⟨i, g, order, -, -, -, hord, hj, -⟩, hacct, hbytes⟩⟩
      · -- nothing is left: give back what was taken
        refine wp_ite (fun _ => ?_) fun hno => absurd rfl hno
        refine wp_bind ((freeNodes_wp hb C l s₁ hl hinv ha).mono ?_)
        rintro _ s' ⟨h1, h2, h3⟩
        refine wp_pure ⟨h1, h2, fun g hg => absurd hg List.not_mem_nil, fun x => ?_, fun _ _ _ => .inl rfl⟩
        exact h3.2 hrel x
      · rw [hblock.not_nil hb]
        refine wp_ite (fun h => absurd h Bool.false_ne_true) fun _ => ?_
        refine wp_bind ((C.slabAlloc s₁ hinv₁ ha₁).mono ?_)
        rintro r s₂ ⟨hr, hinv₂, ha₂, hacct₂, hbytes₂⟩
        rw [hr hrel]
        have hpos : 0 < 2 ^ (j + bits) := by positivity
        have hl' : Blocks bits (l ++ [f]) := by
          intro g hg
          rcases List.mem_append.mp hg with hg | hg
          · exact hl g hg
          · obtain rfl := List.mem_singleton.mp hg
            exact ⟨j, b, hblock⟩
        refine (ih _ (l ++ [f]) s₂ hl' hinv₂ ha₂ (by omega)).mono ?_
        rintro l' s' ⟨h1, h2, h3, h4, h5⟩
        refine ⟨h1, h2, h3, fun x => ?_, fun start hpage hpart => ?_⟩
        · have e1 := h4 x
          have e2 := hacct x
          rw [hacct₂, coverList_append, coverList_cons, hblock.span_eq hb] at e1
          have hnil : coverList [] x = 0 := rfl
          omega
        · rw [hpage] at hlarge
          exact h5 start hpage (hpart.next hb hlt hlarge hord (hj.trans_le (Nat.min_le_right _ _)) hblock)
    · exact wp_pure ⟨hinv, ha, hl, fun _ => rfl, fun start _ hpart => .inr (hpart.end_reached hb hge)⟩

/-- **`sys$fpage_alloc_list`.**  The flexpages of the result have left the account; when the
    function gives up, nothing has.  A range of whole pages is backed to its end. -/
theorem fpageAllocList_wp (s : σ) (hinv : C.Inv s) (ha : AInv bits (E.get s))
    (base end_ pagesize : Nat) :
    Wp J (fpageAllocList E bits base end_ pagesize) s fun l s' => C.Inv s' ∧ AInv bits (E.get s') ∧
      Blocks bits l ∧ (∀ x, C.acct s' x + coverList l x = C.acct s x) ∧
      (pagesize = 2 ^ bits → base % 2 ^ bits = 0 → (end_ + 1) % 2 ^ bits = 0 → base ≤ end_ + 1 →
        end_ < wordSize → base < wordSize → l = [] ∨ Backs base end_ l) := by
  refine wp_bind (wp_alloc ?_)
  refine (allocListLoop_wp hb C hrel end_ pagesize _ base [] s
    (fun g hg => absurd hg List.not_mem_nil) hinv ha (Nat.lt_succ_self _)).mono ?_
  rintro l s' ⟨h1, h2, h3, h4, h5⟩
  refine ⟨h1, h2, h3, h4, fun hpage hal hend hle hword hbase => h5 base hpage ?_⟩
  exact ⟨hword, hend, (Nat.mod_eq_of_lt hbase).symm, hal, hle, trivial⟩

end

end FreeVMS.Alloc
