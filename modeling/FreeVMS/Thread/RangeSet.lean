import FreeVMS.Thread.RangeList
import FreeVMS.Lib.Run

/-!
# The set of a range free list

`sys_rfl.c` against the set that a list stands for: what the three functions should do to the set, and
when they do it.  The comparisons with `to + 1` and `from - 1` wrap at the ends of the words, and a range
that is put in is compared with one range after the other, by its ends only.
-/

namespace FreeVMS.Thread

open Alloc Run

/-- A call of one of the functions. -/
inductive RflOp where
  | insertRange (lo hi : Nat)
  | free (val : Nat)
  | alloc
deriving DecidableEq, Repr

/-- What a call returns. -/
inductive RflResult where
  | status (status : RflStatus)
  | value (val : Nat)
deriving DecidableEq, Repr

/-- The arguments are words. -/
def RflOp.Word : RflOp → Prop
  | insertRange lo hi => lo < wordSize ∧ hi < wordSize
  | free val => val < wordSize
  | alloc => True

/-- The call, on the list. -/
def rflCall : RflOp → List Range → RflResult × List Range
  | .insertRange lo hi, list => (.status (rflInsertRange list lo hi).1, (rflInsertRange list lo hi).2)
  | .free val, list => (.status (rflFree list val).1, (rflFree list val).2)
  | .alloc, list => (.value (rflAlloc list).1, (rflAlloc list).2)

/-- One call after another. -/
def rflStep (op : RflOp) (list : List Range) : Except Empty (List Range) := .ok (rflCall op list).2

/-! ### The set -/

/-- What putting `[lo, hi]` in should do to a set. -/
inductive InsertSpec (lo hi : Nat) (S : Nat → Prop) : RflStatus → (Nat → Prop) → Prop
  | invRange : hi < lo → InsertSpec lo hi S .invRange S
  | overlap : lo ≤ hi → (∃ n, lo ≤ n ∧ n ≤ hi ∧ S n) → InsertSpec lo hi S .overlap S
  | success : lo ≤ hi → (∀ n, lo ≤ n → n ≤ hi → ¬ S n) →
      InsertSpec lo hi S .success fun n => (lo ≤ n ∧ n ≤ hi) ∨ S n

/-- What taking a number should do to a set: its least one is taken, and the last word tells that there is
    none. -/
inductive AllocSpec (S : Nat → Prop) : Nat → (Nat → Prop) → Prop
  | empty : (∀ n, ¬ S n) → AllocSpec S (wordSize - 1) S
  | least {n : Nat} : S n → (∀ m, S m → n ≤ m) → AllocSpec S n fun m => m ≠ n ∧ S m

/-- What a call should do to a set. -/
inductive RflSpec (S : Nat → Prop) : RflOp → RflResult → (Nat → Prop) → Prop
  | insertRange {lo hi : Nat} {status : RflStatus} {S' : Nat → Prop} :
      InsertSpec lo hi S status S' → RflSpec S (.insertRange lo hi) (.status status) S'
  | free {val : Nat} {status : RflStatus} {S' : Nat → Prop} :
      InsertSpec val val S status S' → RflSpec S (.free val) (.status status) S'
  | alloc {n : Nat} {S' : Nat → Prop} : AllocSpec S n S' → RflSpec S .alloc (.value n) S'

/-- A range is put in rightly: the set of the list changes as it should, and the list remains in order,
    sorted, with disjoint ranges no two of which are adjacent.  An overlap changes nothing. -/
structure InsertRight (lo hi : Nat) (list : List Range) : Prop where
  inv : RangeInv (rflInsertRange list lo hi).2
  refines : ∃ S', InsertSpec lo hi (fun n => Within n list) (rflInsertRange list lo hi).1 S' ∧
    ∀ n, Within n (rflInsertRange list lo hi).2 ↔ S' n
  kept : (rflInsertRange list lo hi).1 = .overlap → (rflInsertRange list lo hi).2 = list

/-- The call does to the set of the list what it should, and the list remains in order. -/
structure CallRight (op : RflOp) (list : List Range) : Prop where
  inv : RangeInv (rflCall op list).2
  refines : ∃ S', RflSpec (fun n => Within n list) op (rflCall op list).1 S' ∧
    ∀ n, Within n (rflCall op list).2 ↔ S' n
  kept : (rflCall op list).1 = .status .overlap → (rflCall op list).2 = list

/-- When putting `[lo, hi]` in does what it should.  A range that has numbers of the set has the first of
    them inside of a range of the list, or its last one and not the number before its first.  When it goes
    up to the last word and 0 is in the set, all up to `lo` is.  When it begins at 0 and the list is one
    range up to the last word, it reaches that range. -/
structure InsertClear (lo hi : Nat) (list : List Range) : Prop where
  ends : (∃ n, lo ≤ n ∧ n ≤ hi ∧ Within n list) →
    Within lo list ∨ (Within hi list ∧ ¬ (0 < lo ∧ Within (lo - 1) list))
  top : hi + 1 = wordSize → Within 0 list → ∀ n ≤ lo, Within n list
  bottom : lo = 0 → ∀ r, list = [r] → r.hi + 1 = wordSize → r.lo ≤ hi + 1

/-- When a call does what it should. -/
def CallClear : RflOp → List Range → Prop
  | .insertRange lo hi, list => lo ≤ hi → InsertClear lo hi list
  | .free val, list => InsertClear val val list
  | .alloc, _ => True

/-! ### The scan -/

section

variable {lo hi : Nat} {r : Range} {list rest : List Range}

/-- A list whose first range ends with the last word has no other. -/
theorem RangeInv.rest_nil (h : RangeInv (r :: rest)) (hr : r.hi + 1 = wordSize) : rest = [] := by
  cases rest with
  | nil => rfl
  | cons b rest =>
    obtain ⟨-, hafter, hrest⟩ := rangeInv_cons.mp h
    have hb := hafter b List.mem_cons_self
    have hbw := (rangeInv_cons.mp hrest).1
    omega

theorem wordAdd_one_cases {x : Nat} (hx : x < wordSize) :
    wordAdd x 1 = if x + 1 = wordSize then 0 else x + 1 := by
  rw [wordAdd]
  split
  · rename_i h
    rw [h, Nat.mod_self]
  · exact Nat.mod_eq_of_lt (by omega)

theorem wordSub_one_cases {x : Nat} (hx : x < wordSize) :
    wordSub x 1 = if x = 0 then wordSize - 1 else x - 1 := by
  split
  · rename_i h
    rw [h]
    rfl
  · exact wordSub_one (by omega) hx.le

/-- A range that begins above the end of `[lo, hi]`, or reaches it, hides what comes behind it. -/
theorem ends_off (hinv : RangeInv (r :: rest)) (hle : lo ≤ hi)
    (hin : ¬ ((lo ≥ r.lo ∧ lo ≤ r.hi) ∨ (hi ≥ r.lo ∧ hi ≤ r.hi))) (hreach : hi ≤ r.hi + 1) :
    ¬ Within lo (r :: rest) ∧ ¬ Within hi (r :: rest) := by
  refine ⟨fun h => ?_, fun h => ?_⟩
  · rcases within_cons.mp h with h | h
    · exact hin (.inl h)
    · have := hinv.beyond h
      omega
  · rcases within_cons.mp h with h | h
    · exact hin (.inr h)
    · have := hinv.beyond h
      omega

/-- The scan comes to an end of the range in the list before it finds a place for it. -/
structure Noticed (lo hi : Nat) (list : List Range) : Prop where
  ends : Within lo list ∨ (Within hi list ∧ ¬ (0 < lo ∧ Within (lo - 1) list))
  top : hi + 1 = wordSize → Within 0 list → ∀ n ≤ lo, Within n list

theorem not_noticed_of_off (hoff : ¬ Within lo list ∧ ¬ Within hi list) : ¬ Noticed lo hi list :=
  fun h => h.ends.elim hoff.1 fun hends => hoff.2 hends.1

theorem noticed_inside (hinv : RangeInv (r :: rest)) (hle : lo ≤ hi)
    (hin : (lo ≥ r.lo ∧ lo ≤ r.hi) ∨ (hi ≥ r.lo ∧ hi ≤ r.hi)) : Noticed lo hi (r :: rest) := by
  constructor
  case ends =>
    simp only [within_cons]
    by_cases hlo : r.lo ≤ lo
    · exact .inl (.inl ⟨hlo, by omega⟩)
    · refine .inr ⟨.inl (by omega), ?_⟩
      rintro ⟨-, h | h⟩
      · omega
      · have := hinv.beyond h
        omega
  case top =>
    intro hlast hzero n hn
    rcases within_cons.mp hzero with hzero | hzero
    · have hhi := (rangeInv_cons.mp hinv).1.2
      exact within_cons.mpr (.inl ⟨by omega, by omega⟩)
    · have := hinv.beyond hzero
      omega

/-- The scan stops at a range that begins behind the new one. -/
theorem not_noticed_before (hinv : RangeInv (r :: rest)) (hle : lo ≤ hi) (hhi : hi < wordSize)
    (hin : ¬ ((lo ≥ r.lo ∧ lo ≤ r.hi) ∨ (hi ≥ r.lo ∧ hi ≤ r.hi)))
    (hbefore : r.lo = wordAdd hi 1) : ¬ Noticed lo hi (r :: rest) := by
  have hp := (rangeInv_cons.mp hinv).1.1
  rw [wordAdd_one_cases hhi] at hbefore
  by_cases hlast : hi + 1 = wordSize
  · -- the range begins with 0, and what comes behind it is no number of the set
    rw [if_pos hlast] at hbefore
    intro h
    have hzero : Within 0 (r :: rest) := within_cons.mpr (.inl ⟨by omega, by omega⟩)
    rcases within_cons.mp (h.top hlast hzero (r.hi + 1) (by omega)) with h | h
    · omega
    · have := hinv.beyond h
      omega
  · rw [if_neg hlast] at hbefore
    exact not_noticed_of_off (ends_off hinv hle hin (by omega))

/-- The scan stops at a range that ends before the new one. -/
theorem not_noticed_end (hinv : RangeInv (r :: rest)) (hle : lo ≤ hi) (hhi : hi < wordSize)
    (hin : ¬ ((lo ≥ r.lo ∧ lo ≤ r.hi) ∨ (hi ≥ r.lo ∧ hi ≤ r.hi)))
    (hend : r.hi = wordSub lo 1) : ¬ Noticed lo hi (r :: rest) := by
  have hp := (rangeInv_cons.mp hinv).1.1
  rw [wordSub_one_cases (show lo < wordSize by omega)] at hend
  by_cases hzero : lo = 0
  · rw [if_pos hzero] at hend
    exact not_noticed_of_off (ends_off hinv hle hin (by omega))
  · rw [if_neg hzero] at hend
    intro h
    rcases h.ends with h | ⟨-, hno⟩
    · rcases within_cons.mp h with h | h
      · exact hin (.inl h)
      · have := hinv.beyond h
        omega
    · exact hno ⟨by omega, within_cons.mpr (.inl ⟨by omega, by omega⟩)⟩

/-- A range between the ends of the new one or below it tells nothing. -/
theorem noticed_skip (hinv : RangeInv (r :: rest)) (hle : lo ≤ hi) (hhi : hi < wordSize)
    (hin : ¬ ((lo ≥ r.lo ∧ lo ≤ r.hi) ∨ (hi ≥ r.lo ∧ hi ≤ r.hi)))
    (hbefore : r.lo ≠ wordAdd hi 1) (hend : r.hi ≠ wordSub lo 1) :
    Noticed lo hi rest ↔ Noticed lo hi (r :: rest) := by
  have hlo : Within lo (r :: rest) ↔ Within lo rest :=
    within_cons.trans (or_iff_right fun h => hin (.inl h))
  have hhi' : Within hi (r :: rest) ↔ Within hi rest :=
    within_cons.trans (or_iff_right fun h => hin (.inr h))
  have hpre : 0 < lo → (Within (lo - 1) (r :: rest) ↔ Within (lo - 1) rest) := by
    intro hpos
    rw [wordSub_one_cases (show lo < wordSize by omega), if_neg (by omega)] at hend
    refine within_cons.trans (or_iff_right ?_)
    omega
  have hzero : ¬ Within 0 rest := fun h => by
    have := hinv.beyond h
    omega
  have hzero' : hi + 1 = wordSize → ¬ Within 0 (r :: rest) := by
    intro hlast h
    rw [wordAdd_one_cases hhi, if_pos hlast] at hbefore
    rcases within_cons.mp h with h | h
    · omega
    · exact hzero h
  constructor
  · intro h
    refine ⟨?_, fun hlast h0 => absurd h0 (hzero' hlast)⟩
    rw [hlo, hhi']
    exact h.ends.imp_right fun hends => ⟨hends.1, fun hp => hends.2 ⟨hp.1, (hpre hp.1).mp hp.2⟩⟩
  · intro h
    refine ⟨?_, fun _ h0 => absurd h0 hzero⟩
    rw [← hlo, ← hhi']
    exact h.ends.imp_right fun hends => ⟨hends.1, fun hp => hends.2 ⟨hp.1, (hpre hp.1).mpr hp.2⟩⟩

/-- **Overlap.**  The scan notices it by the ends of the range. -/
theorem rflScan_none_iff (hle : lo ≤ hi) (hhi : hi < wordSize) : ∀ list, RangeInv list →
    (rflScan lo hi list = none ↔ Noticed lo hi list) := by
  intro list
  induction list with
  | nil =>
    intro _
    refine iff_of_false (by simp [rflScan]) (not_noticed_of_off ⟨within_nil, within_nil⟩)
  | cons r rest ih =>
    intro hinv
    rw [rflScan]
    by_cases hin : (lo ≥ r.lo ∧ lo ≤ r.hi) ∨ (hi ≥ r.lo ∧ hi ≤ r.hi)
    · rw [if_pos hin]
      exact iff_of_true rfl (noticed_inside hinv hle hin)
    rw [if_neg hin]
    by_cases hbefore : r.lo = wordAdd hi 1
    · rw [if_pos hbefore]
      exact iff_of_false (by simp) (not_noticed_before hinv hle hhi hin hbefore)
    rw [if_neg hbefore]
    by_cases hend : r.hi = wordSub lo 1
    · rw [if_pos hend]
      exact iff_of_false (by simp) (not_noticed_end hinv hle hhi hin hend)
    rw [if_neg hend]
    by_cases hfirst : r.lo > hi
    · rw [if_pos hfirst]
      have hp := (rangeInv_cons.mp hinv).1.1
      exact iff_of_false (by simp) (not_noticed_of_off (ends_off hinv hle hin (by omega)))
    · rw [if_neg hfirst, Option.map_eq_none_iff, ih (rangeInv_cons.mp hinv).2.2]
      exact noticed_skip hinv hle hhi hin hbefore hend

/-- **Insertion.**  A range that has no number of the set is added to it, unless an end of the words
    intervenes. -/
theorem rflScan_clear (hinv : RangeInv list) (hle : lo ≤ hi) (hhi : hi < wordSize)
    (hdisj : ∀ n, lo ≤ n → n ≤ hi → ¬ Within n list) (hclear : InsertClear lo hi list) :
    ∃ list', rflScan lo hi list = some list' ∧ Added lo hi list list' := by
  rcases Nat.eq_zero_or_pos lo with rfl | hpos
  · cases list with
    | nil => exact ⟨_, rfl, added_single hle hhi⟩
    | cons r rest =>
      obtain ⟨⟨hp, hpw⟩, -, -⟩ := rangeInv_cons.mp hinv
      have hbelow : hi < r.lo := by
        by_contra hge
        exact hdisj r.lo (Nat.zero_le _) (by omega) (within_cons.mpr (.inl ⟨Nat.le_refl _, hp⟩))
      have hsucc : wordAdd hi 1 = hi + 1 := wordAdd_one (by omega)
      rw [rflScan, if_neg (by omega), hsucc]
      by_cases hnext : r.lo = hi + 1
      · rw [if_pos hnext]
        exact ⟨_, rfl, added_joined hinv hle hnext⟩
      · have hpred : wordSub 0 1 = wordSize - 1 := rfl
        have hlast : r.hi ≠ wordSub 0 1 := by
          rw [hpred]
          intro heq
          have hone := hclear.bottom rfl r (by rw [hinv.rest_nil (by omega)]) (by omega)
          omega
        rw [if_neg hnext, if_neg hlast, if_pos hbelow]
        exact ⟨_, rfl, added_front hinv hle (by omega)⟩
  · refine rflScan_added hpos hle hhi list hinv (fun b hb => ?_) hdisj
    by_cases hlast : hi + 1 = wordSize
    · -- no range begins with 0, since `lo` is not in the set
      have hb0 : b.lo ≠ 0 := fun h0 =>
        hdisj lo (Nat.le_refl _) hle (hclear.top hlast ⟨b, hb, by omega, Nat.zero_le _⟩ lo (Nat.le_refl _))
      have hbw := hinv.proper b hb
      rw [wordAdd, hlast, Nat.mod_self]
      omega
    · rw [wordAdd_one (by omega)]

/-- Otherwise a range is made whose ends are the wrong way round. -/
theorem clear_of_rflScan {list' : List Range} (hinv : RangeInv list) (hle : lo ≤ hi) (hhi : hi < wordSize)
    (hdisj : ∀ n, lo ≤ n → n ≤ hi → ¬ Within n list) (hscan : rflScan lo hi list = some list')
    (hinv' : RangeInv list') : InsertClear lo hi list := by
  cases list with
  | nil =>
    exact ⟨fun ⟨n, _, _, h⟩ => absurd h within_nil, fun _ h => absurd h within_nil,
      fun _ r h => by cases h⟩
  | cons r rest =>
    obtain ⟨⟨hp, hpw⟩, hafter, hrest⟩ := rangeInv_cons.mp hinv
    have hin : ¬ ((lo ≥ r.lo ∧ lo ≤ r.hi) ∨ (hi ≥ r.lo ∧ hi ≤ r.hi)) := by
      rintro (h | h)
      · exact hdisj lo (Nat.le_refl _) hle (within_cons.mpr (.inl h))
      · exact hdisj hi hle (Nat.le_refl _) (within_cons.mpr (.inl h))
    rw [rflScan, if_neg hin] at hscan
    constructor
    case ends =>
      rintro ⟨n, hlo, hhi', hn⟩
      exact absurd hn (hdisj n hlo hhi')
    case top =>
      intro hlast hzero
      have hr0 : r.lo = 0 := by
        rcases within_cons.mp hzero with h | h
        · omega
        · have := hinv.beyond h
          omega
      rw [if_pos (by rw [wordAdd, hlast, Nat.mod_self]; exact hr0)] at hscan
      obtain rfl := Option.some.inj hscan
      have hproper := (rangeInv_cons.mp hinv').1
      simp only at hproper
      omega
    case bottom =>
      intro hzero b hb hlast
      obtain ⟨rfl, rfl⟩ := List.cons.inj hb
      by_contra hgap
      have hsucc : wordAdd hi 1 = hi + 1 := wordAdd_one (by omega)
      have hpred : wordSub lo 1 = wordSize - 1 := by
        rw [hzero]
        rfl
      rw [hsucc, if_neg (by omega), hpred, if_pos (by omega), rflExtend] at hscan
      obtain rfl := Option.some.inj hscan
      have hproper := (rangeInv_cons.mp hinv').1
      simp only at hproper
      omega

theorem rflInsertRange_none (hle : lo ≤ hi) (hs : rflScan lo hi list = none) :
    rflInsertRange list lo hi = (.overlap, list) := by
  rw [rflInsertRange, if_neg (by omega), hs]

theorem rflInsertRange_some {list' : List Range} (hle : lo ≤ hi) (hs : rflScan lo hi list = some list') :
    rflInsertRange list lo hi = (.success, list') := by
  rw [rflInsertRange, if_neg (by omega), hs]

/-- A call that refuses the range with the status it should. -/
theorem InsertRight.unchanged {status : RflStatus} (hinv : RangeInv list)
    (hout : rflInsertRange list lo hi = (status, list))
    (hspec : InsertSpec lo hi (fun n => Within n list) status fun n => Within n list) :
    InsertRight lo hi list := by
  constructor
  case inv =>
    rw [hout]
    exact hinv
  case refines =>
    rw [hout]
    exact ⟨_, hspec, fun n => Iff.rfl⟩
  case kept =>
    rw [hout]
    exact fun _ => rfl

/-- A range that has numbers of the set: the scan has to notice it. -/
theorem insertRight_overlap_iff (hinv : RangeInv list) (hle : lo ≤ hi)
    (hover : ∃ n, lo ≤ n ∧ n ≤ hi ∧ Within n list) :
    InsertRight lo hi list ↔ rflScan lo hi list = none := by
  constructor
  · rintro ⟨-, ⟨S', hspec, -⟩, -⟩
    cases hs : rflScan lo hi list with
    | none => rfl
    | some list' =>
      rw [rflInsertRange_some hle hs] at hspec
      cases hspec with
      | success _ hdisj =>
        obtain ⟨n, hlo, hn, hin⟩ := hover
        exact absurd hin (hdisj n hlo hn)
  · exact fun hs => .unchanged hinv (rflInsertRange_none hle hs) (.overlap hle hover)

/-- **When a range is put in rightly.** -/
theorem insertRight_iff (hinv : RangeInv list) (hhi : hi < wordSize) :
    InsertRight lo hi list ↔ (lo ≤ hi → InsertClear lo hi list) := by
  by_cases hle : lo ≤ hi
  swap
  · have hlt : lo > hi := Nat.lt_of_not_le hle
    exact iff_of_true (.unchanged hinv (if_pos hlt) (.invRange hlt)) fun h => absurd h hle
  rw [imp_iff_right hle]
  by_cases hover : ∃ n, lo ≤ n ∧ n ≤ hi ∧ Within n list
  · rw [insertRight_overlap_iff hinv hle hover, rflScan_none_iff hle hhi list hinv]
    refine ⟨fun h => ⟨fun _ => h.ends, h.top, ?_⟩, fun h => ⟨h.ends hover, h.top⟩⟩
    rintro - r rfl -
    obtain ⟨n, -, hn, hin⟩ := hover
    rcases within_cons.mp hin with h | h
    · omega
    · exact absurd h within_nil
  · have hdisj : ∀ n, lo ≤ n → n ≤ hi → ¬ Within n list := fun n hlo hn hin => hover ⟨n, hlo, hn, hin⟩
    constructor
    · rintro ⟨hinv', ⟨S', hspec, -⟩, -⟩
      cases hs : rflScan lo hi list with
      | none =>
        rw [rflInsertRange_none hle hs] at hspec
        cases hspec with
        | overlap _ h => exact absurd h hover
      | some list' =>
        rw [rflInsertRange_some hle hs] at hinv'
        exact clear_of_rflScan hinv hle hhi hdisj hs hinv'
    · intro hclear
      obtain ⟨list', hs, hadd⟩ := rflScan_clear hinv hle hhi hdisj hclear
      have hout := rflInsertRange_some hle hs
      constructor
      case inv =>
        rw [hout]
        exact hadd.inv
      case refines =>
        rw [hout]
        exact ⟨_, .success hle hdisj, hadd.within⟩
      case kept =>
        rw [hout]
        intro h
        cases h

/-! ### The calls -/

theorem callRight_insertRange : CallRight (.insertRange lo hi) list ↔ InsertRight lo hi list := by
  constructor
  · rintro ⟨hinv, ⟨S', hspec, hS'⟩, hkept⟩
    cases hspec with
    | insertRange h => exact ⟨hinv, ⟨S', h, hS'⟩, fun h => hkept (congrArg RflResult.status h)⟩
  · rintro ⟨hinv, ⟨S', hspec, hS'⟩, hkept⟩
    exact ⟨hinv, ⟨S', .insertRange hspec, hS'⟩, fun h => hkept (RflResult.status.inj h)⟩

theorem callRight_free {val : Nat} : CallRight (.free val) list ↔ InsertRight val val list := by
  constructor
  · rintro ⟨hinv, ⟨S', hspec, hS'⟩, hkept⟩
    cases hspec with
    | free h => exact ⟨hinv, ⟨S', h, hS'⟩, fun h => hkept (congrArg RflResult.status h)⟩
  · rintro ⟨hinv, ⟨S', hspec, hS'⟩, hkept⟩
    exact ⟨hinv, ⟨S', .free hspec, hS'⟩, fun h => hkept (RflResult.status.inj h)⟩

/-- Taking a number is always right. -/
theorem callRight_alloc (hinv : RangeInv list) : CallRight .alloc list := by
  by_cases hne : list = []
  · subst hne
    constructor
    case inv => exact hinv
    case refines => exact ⟨_, .alloc (.empty fun _ => within_nil), fun n => Iff.rfl⟩
    case kept => exact fun _ => rfl
  · have htaken := rflAlloc_taken hinv hne
    constructor
    case inv => exact htaken.inv
    case refines => exact ⟨_, .alloc (.least htaken.mem htaken.least), htaken.within⟩
    case kept =>
      intro h
      cases h

/-- **When a call is right.** -/
theorem callRight_iff {op : RflOp} (hinv : RangeInv list) (hw : op.Word) :
    CallRight op list ↔ CallClear op list := by
  cases op with
  | insertRange lo hi => rw [callRight_insertRange, insertRight_iff hinv hw.2, CallClear]
  | free val =>
    rw [callRight_free, insertRight_iff hinv hw, CallClear]
    exact ⟨fun h => h (Nat.le_refl _), fun h _ => h⟩
  | alloc => exact ⟨fun _ => trivial, fun _ => callRight_alloc hinv⟩

/-- **A range free list is a set.**  In a run from the empty list every call does what it should if and only
    if every call meets the condition when its turn comes. -/
theorem runs_rfl_right_iff (ops : List RflOp) (hops : ∀ op ∈ ops, op.Word) :
    Along rflStep CallRight ops [] ↔ Along rflStep CallClear ops [] := by
  have hiff : ∀ op list, RangeInv list → op.Word → (CallRight op list ↔ CallClear op list) :=
    fun _ _ hinv hw => callRight_iff hinv hw
  refine Along.congr hiff (fun op list list' hinv hw hclear hs => ?_) ops [] rangeInv_nil
    (Along.of_forall (fun op hop _ => hops op hop) [])
  obtain rfl := Except.ok.inj hs
  exact ((callRight_iff hinv hw).mpr hclear).inv

theorem few_rfl_right_iff :
    Along rflStep CallRight [.insertRange 5 7, .free 8, .alloc] [] ↔
      Along rflStep CallClear [.insertRange 5 7, .free 8, .alloc] [] :=
  runs_rfl_right_iff [.insertRange 5 7, .free 8, .alloc] (by simp [RflOp.Word, wordSize])

/-- The numbers from 5 to 7 are in the list, and those from 3 to 10 are put in beside them. -/
theorem contained_not_noticed : ¬ Along rflStep CallRight [.insertRange 5 7, .insertRange 3 10] [] := by
  intro h
  have hright : CallRight (.insertRange 3 10) [⟨5, 7⟩] := (h.2 [⟨5, 7⟩] rfl).1
  obtain ⟨S', hspec, -⟩ := (callRight_insertRange.mp hright).refines
  have hout : rflInsertRange [⟨5, 7⟩] 3 10 = (.success, [⟨5, 7⟩, ⟨3, 10⟩]) := by decide
  rw [hout] at hspec
  cases hspec with
  | success _ hdisj => exact hdisj 5 (by decide) (by decide) (within_cons.mpr (.inl ⟨by decide, by decide⟩))

end

end FreeVMS.Thread
