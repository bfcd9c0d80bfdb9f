import FreeVMS.Rtl.BuildNodespec
import FreeVMS.Rtl.StrFirstSubstring

/-!
# The quotation marks of a node specification

Of the quotation marks of the primary name exactly two are doubled when there are two of them or more.
With one mark the doubling is left behind in the temporary string, unless the mark is the last
character, and with none the search goes on in a temporary string that is not there.
-/

namespace FreeVMS.Rtl.Str

open Run (Ends)
open Lib.Occurrence
open Lib.Doubling

variable {place : Store → Nat → Nat} {static : Nat → Prop} {readable : Nat → Bool} {σ σ' : Store}
  {d source sub quote doubleQuote nodespec : Descriptor} {s t a b : List Byte} {p q r : Nat}
  {own : List Nat}

/-! ## Doubling two marks -/

/-- The mark at `r` is doubled. -/
def spliced (s : List Byte) (r : Nat) : List Byte :=
  (s.take (r - 1) ++ [quotationMark, quotationMark] ++ s.drop r).take 65535

/-- The first mark is doubled on the way into the temporary string, and the next one on the way
back. -/
def Duplicated (s t : List Byte) : Prop :=
  ∃ r r', FirstFrom (Occurs [quotationMark] s) 1 r ∧ r ≠ 0 ∧
    FirstFrom (Occurs [quotationMark] (spliced s r)) (min (r + 2) (spliced s r).length) r' ∧
    t = if r' = 0 then s else spliced (spliced s r) r'

theorem replaceFound_dynamic (ha : Allocates place static) (hσ : Tidy static σ) (hd : Dynamic σ d t)
    (hs : Source static σ [d.aPointer] source p s)
    (hsub : Source static σ [d.aPointer] sub q [quotationMark, quotationMark]) (hr : r ≠ 0)
    (hle : r ≤ s.length) :
    Gives place static σ d.aPointer strNormal (spliced s r)
      (replaceFound place d source r sub σ) := by
  have hfits := hs.fits
  have htoInt : (BitVec.ofNat 64 r).toInt = r := toInt_ofNat (by omega)
  have hstart : max (BitVec.ofNat 64 r).toInt 1 = r := by omega
  have hlast : min (BitVec.ofNat 64 r).toInt s.length = r := by omega
  have hreplace := strReplace_dynamic ha hσ hd hs hsub hstart hlast (Int.le_refl _)
  have hbefore : ((r : Int) - 1).toNat = r - 1 := by omega
  rw [hbefore, Int.toNat_natCast] at hreplace
  rw [replaceFound, if_pos hr]
  exact hreplace

/-- In the heap everything may be examined. -/
theorem Dynamic.covers (hd : Dynamic σ d s) (hσ : Tidy static σ)
    (hheap : ∀ i, ¬ static i → readable i = true) : Covers readable d.aPointer s.length := by
  intro i hi
  rcases hd.owned with ⟨-, rfl⟩ | ⟨-, size, hb, hsize⟩
  · exact absurd hi (Nat.not_lt_zero i)
  · exact hheap _ (hσ.heap _ hb _ (@Block.holds_add ⟨d.aPointer, size⟩ i (Nat.lt_of_lt_of_le hi hsize)))

section duplicate

variable (hheap : ∀ i, ¬ static i → readable i = true)
  (h : Strings static σ own σ' [(nodespec, s), (doubleQuote, [quotationMark, quotationMark]),
    (quote, [quotationMark])])
include hheap h

/-- What the first search says. -/
theorem position_front :
    (look σ'.memory readable ((nodespec.aPointer : Int) - 1) = none →
        strPosition σ'.memory readable nodespec quote 0 = .ok none) ∧
      (look σ'.memory readable ((nodespec.aPointer : Int) - 1) = some quotationMark →
        strPosition σ'.memory readable nodespec quote 0 = .ok (some 0)) ∧
      ∀ y, look σ'.memory readable ((nodespec.aPointer : Int) - 1) = some y → y ≠ quotationMark →
        ∃ r, strPosition σ'.memory readable nodespec quote 0 = .ok (some r) ∧
          FirstFrom (Occurs [quotationMark] s) 1 r := by
  have hquote := h.dynamic quote [quotationMark] (by simp)
  exact strPosition_in_front h.head.text hquote.text (h.head.covers h.tidy hheap)
    (hquote.covers h.tidy hheap) (by unfold startOf; omega)

/-- In a string that is not there nothing can be searched for. -/
theorem position_null (start : Int) :
    strPosition σ'.memory readable nullString quote start = .ok none := by
  have hquote := h.dynamic quote [quotationMark] (by simp)
  refine (strPosition_in_front (nullString_dynamic σ').text hquote.text
    ((nullString_dynamic σ').covers h.tidy hheap) (hquote.covers h.tidy hheap) ?_).1 ?_
  · unfold startOf
    rw [List.length_nil]
    omega
  · rfl

/-- When no mark is found the temporary string is not there. -/
theorem duplicateQuotes_lost (place : Store → Nat → Nat) (hlost : quotationMark ∉ s ∨
      ∀ y, look σ'.memory readable ((nodespec.aPointer : Int) - 1) = some y → y = quotationMark) :
    duplicateQuotes place readable quote doubleQuote nodespec σ' = .ok none := by
  obtain ⟨hnone, hmark, hother⟩ := position_front hheap h
  cases hlook : look σ'.memory readable ((nodespec.aPointer : Int) - 1) with
  | none =>
    rw [duplicateQuotes, hnone hlook]
    rfl
  | some y =>
    have hzero : strPosition σ'.memory readable nodespec quote 0 = .ok (some 0) := by
      by_cases hy : y = quotationMark
      · rw [hy] at hlook
        exact hmark hlook
      · obtain ⟨r, hr, hfirst⟩ := hother y hlook hy
        have hfree : quotationMark ∉ s := hlost.resolve_right fun hlost => hy (hlost y hlook)
        obtain rfl : r = 0 := hfirst.unique (@firstFrom_no_mark _ _ _ [] hfree)
        exact hr
    rw [duplicateQuotes, hzero, ok_bind]
    simp only [replaceFound, ne_eq, not_true_eq_false, if_false, ok_bind, position_null hheap h]
    rfl

/-- Otherwise both searches succeed or fail as they should. -/
theorem duplicateQuotes_leaves (ha : Allocates place static) (hmem : quotationMark ∈ s) {y : Byte}
    (hlook : look σ'.memory readable ((nodespec.aPointer : Int) - 1) = some y)
    (hy : y ≠ quotationMark) :
    Ends (OutOfMemory place) (fun o => ∃ out t, o = some out ∧ Duplicated s t ∧
        Strings static σ own out.store
          [(out.destination, t), (doubleQuote, [quotationMark, quotationMark]),
            (quote, [quotationMark])])
      (duplicateQuotes place readable quote doubleQuote nodespec σ') := by
  obtain ⟨r, hr, hfirst⟩ := (position_front hheap h).2.2 y hlook hy
  have hne := firstFrom_ne_zero hfirst hmem
  have hle := hfirst.le (List.cons_ne_nil _ _) hne
  rw [List.length_singleton] at hle
  rw [duplicateQuotes, hr, ok_bind]
  -- into the temporary string
  have h0 := h.null
  have hdouble : (doubleQuote, [quotationMark, quotationMark]) ∈ [(nodespec, s),
      (doubleQuote, [quotationMark, quotationMark]), (quote, [quotationMark])] := by simp
  apply Ends.bind (replaceFound_dynamic ha h0.tidy h0.head h0.second (h0.other hdouble) hne
    (by omega))
  rintro temp ⟨-, htemp⟩
  have h1 := h0.call htemp
  have hquote := h1.dynamic quote [quotationMark] (by simp)
  have hlength : 2 ≤ (spliced s r).length := by
    simp only [spliced, List.length_take, List.length_append, List.length_cons, List.length_nil,
      List.length_drop]
    omega
  have hstart : startOf ((r : Int) + 2) (spliced s r).length =
      (min (r + 2) (spliced s r).length : Nat) := by
    unfold startOf
    omega
  obtain ⟨r', hr', hfirst'⟩ := strPosition_first h1.head.text hquote.text (List.cons_ne_nil _ _)
    (h1.head.covers h1.tidy hheap) (hquote.covers h1.tidy hheap) (by omega) hstart
  rw [hr', ok_bind]
  have h2 := h1.perm (List.Perm.swap _ _ _)
  by_cases hzero : r' = 0
  · simp only [replaceFound, hzero, ne_eq, not_true_eq_false, if_false, ok_bind]
    refine .ok ⟨_, s, rfl, ⟨r, r', hfirst, hne, hfirst', (if_pos hzero).symm⟩, ?_⟩
    exact (h2.perm (List.Perm.swap _ _ _)).forget
  · have hle' := hfirst'.le (List.cons_ne_nil _ _) hzero
    rw [List.length_singleton] at hle'
    -- and back
    have hdouble' : (doubleQuote, [quotationMark, quotationMark]) ∈ [(temp.destination, spliced s r),
        (doubleQuote, [quotationMark, quotationMark]), (quote, [quotationMark])] := by simp
    apply Ends.bind (replaceFound_dynamic ha h2.tidy h2.head h2.second (h2.other hdouble') hzero
      (by omega))
    rintro out ⟨-, hout⟩
    refine .ok ⟨out, _, rfl, ⟨r, r', hfirst, hne, hfirst', (if_neg hzero).symm⟩, ?_⟩
    exact ((h2.call hout).perm (List.Perm.swap _ _ _)).forget

end duplicate

/-! ## What the doubling makes of a name -/

section doubled

variable {front c : List Byte}

theorem spliced_mark (hfits : (front ++ quotationMark :: c).length + 1 ≤ 65535) :
    spliced (front ++ quotationMark :: c) (front.length + 1) =
      front ++ quotationMark :: quotationMark :: c := by
  rw [List.length_append, List.length_cons] at hfits
  rw [spliced, Nat.add_sub_cancel, List.take_left, List.drop_length_add_append, List.append_assoc,
    List.take_of_length_le]
  · rfl
  · simp only [List.length_append, List.length_cons, List.length_nil, List.drop_succ_cons,
      List.drop_zero]
    omega

/-- A mark that is the last character is found again, and one that is the only mark is not doubled in
`nodespec`. From the second mark on nothing is doubled any more. -/
theorem Duplicated.cases (h : Duplicated s t) (hfits : s.length + 2 ≤ 65535) :
    (∃ a, quotationMark ∉ a ∧ s = a ++ [quotationMark] ∧
        t = a ++ [quotationMark, quotationMark, quotationMark]) ∨
      (∃ a c, quotationMark ∉ a ∧ quotationMark ∉ c ∧ c ≠ [] ∧ s = a ++ quotationMark :: c ∧ t = s) ∨
      ∃ a b c, quotationMark ∉ a ∧ quotationMark ∉ b ∧
        s = a ++ quotationMark :: (b ++ quotationMark :: c) ∧
        t = a ++ quotationMark :: quotationMark :: (b ++ quotationMark :: quotationMark :: c) := by
  obtain ⟨r, r', hfirst, hne, hnext, rfl⟩ := h
  rcases @firstFrom_mark_cases _ _ _ _ [] hfirst with ⟨-, hzero⟩ | ⟨a, c, ha, rfl, rfl⟩
  · exact absurd hzero hne
  · rw [List.length_nil, Nat.zero_add, spliced_mark (by omega)] at hnext ⊢
    rw [List.length_append, List.length_cons] at hfits
    by_cases hc : c = []
    · -- the search goes on at the second of the two marks
      subst hc
      have hstart : min (a.length + 1 + 2) (a ++ [quotationMark, quotationMark]).length =
          (a ++ [quotationMark]).length + 1 := by
        simp only [List.length_append, List.length_cons, List.length_nil]
        omega
      have hsplit : a ++ [quotationMark, quotationMark] =
          (a ++ [quotationMark]) ++ quotationMark :: [] := by simp
      rw [hstart, hsplit] at hnext
      obtain rfl := hnext.unique (firstFrom_mark [] [] List.not_mem_nil)
      refine Or.inl ⟨a, ha, rfl, ?_⟩
      have hlength : ((a ++ [quotationMark]) ++ quotationMark :: []).length + 1 ≤ 65535 := by
        simp only [List.length_append, List.length_cons, List.length_nil] at hfits ⊢
        omega
      rw [if_neg (Nat.succ_ne_zero _), hsplit, List.length_nil, Nat.add_zero, spliced_mark hlength,
        List.append_assoc]
      rfl
    · -- the search goes on behind the two marks
      have hpos := List.length_pos_iff.mpr hc
      have hstart : min (a.length + 1 + 2) (a ++ quotationMark :: quotationMark :: c).length =
          (a ++ [quotationMark, quotationMark]).length + 1 := by
        simp only [List.length_append, List.length_cons, List.length_nil]
        omega
      have hsplit : a ++ quotationMark :: quotationMark :: c =
          (a ++ [quotationMark, quotationMark]) ++ c := by simp
      rw [hstart, hsplit] at hnext
      rcases firstFrom_mark_cases hnext with ⟨hfree, rfl⟩ | ⟨b, c, hb, rfl, rfl⟩
      · exact Or.inr (Or.inl ⟨a, c, ha, hfree, hc, rfl, if_pos rfl⟩)
      · refine Or.inr (Or.inr ⟨a, b, c, ha, hb, rfl, ?_⟩)
        have hlength : ((a ++ [quotationMark, quotationMark] ++ b) ++ quotationMark :: c).length + 1 ≤
            65535 := by
          simp only [List.length_append, List.length_cons, List.length_nil] at hfits ⊢
          omega
        rw [if_neg (Nat.succ_ne_zero _), hsplit, ← List.append_assoc, ← List.length_append,
          spliced_mark hlength, List.append_assoc, List.append_assoc]
        rfl

end doubled

/-- Either or both of two strings may be left out, which does not go unnoticed. -/
theorem append_eq_append_iff_of_left_out {a' b' : List Byte} (ha : a' = a ∨ a' = [])
    (hb : b' = b ∨ b' = []) : a' ++ b' = a ++ b ↔ a' = a ∧ b' = b := by
  constructor
  · intro h
    have hlength := congrArg List.length h
    rw [List.length_append, List.length_append] at hlength
    rcases ha with rfl | rfl
    · exact ⟨rfl, List.append_cancel_left h⟩
    · rcases hb with rfl | rfl
      · exact ⟨List.append_cancel_right h, rfl⟩
      · rw [List.length_nil] at hlength
        have ha : a = [] := List.eq_nil_of_length_eq_zero (by omega)
        have hb : b = [] := List.eq_nil_of_length_eq_zero (by omega)
        exact ⟨ha.symm, hb.symm⟩
  · rintro ⟨rfl, rfl⟩
    rfl

theorem length_le_of_left_out {a' : List Byte} (ha : a' = a ∨ a' = []) : a'.length ≤ a.length := by
  rcases ha with rfl | rfl
  · exact Nat.le_refl _
  · exact Nat.zero_le _

/-- When what is left is right: with two marks, or by chance with one at the end, when a mark that is
left out is made up for by the one too many. -/
theorem Duplicated.eq_iff (h : Duplicated s t) (hfits : s.length + 2 ≤ 65535) {a' b' : List Byte}
    (ha : a' = a ∨ a' = []) (hb : b' = b ∨ b' = []) :
    t ++ a' ++ b' = doubled quotationMark s ++ a ++ b ↔
      (s.count quotationMark = 2 ∧ a' = a ∧ b' = b) ∨
        (s.count quotationMark = 1 ∧ s.getLast? = some quotationMark ∧
          quotationMark :: (a' ++ b') = a ++ b) := by
  have hla := length_le_of_left_out ha
  have hlb := length_le_of_left_out hb
  have hlengths : t ++ a' ++ b' = doubled quotationMark s ++ a ++ b →
      t.length + a'.length + b'.length =
        s.length + s.count quotationMark + a.length + b.length := by
    intro heq
    have hlength := congrArg List.length heq
    simp only [List.length_append, length_doubled] at hlength
    exact hlength
  rcases h.cases hfits with ⟨f, hf, rfl, rfl⟩ | ⟨f, c, hf, hc, hne, rfl, rfl⟩ |
    ⟨f, e, c, hf, he, rfl, rfl⟩
  · -- one mark, at the end
    have hcount : (f ++ [quotationMark]).count quotationMark = 1 := count_mark hf []
    have hdoubled : doubled quotationMark (f ++ [quotationMark]) =
        f ++ [quotationMark, quotationMark] := doubled_mark hf []
    have hleft : f ++ [quotationMark, quotationMark, quotationMark] ++ a' ++ b' =
        (f ++ [quotationMark, quotationMark]) ++ quotationMark :: (a' ++ b') := by simp
    rw [hcount, hdoubled, hleft, List.append_assoc _ a b, List.append_cancel_left_eq,
      List.getLast?_concat]
    simp
  · -- one mark, not at the end
    have hcount := count_mark hf c
    rw [List.count_eq_zero_of_not_mem hc] at hcount
    refine iff_of_false (fun heq => ?_) ?_
    · have hlength := hlengths heq
      omega
    · rintro (⟨htwo, -⟩ | ⟨-, hlast, -⟩)
      · omega
      · rw [List.getLast?_append_of_ne_nil _ (List.cons_ne_nil _ _),
          List.getLast?_cons_of_ne_nil hne] at hlast
        exact hc (List.mem_of_getLast? hlast)
  · -- two marks or more
    have hcount := count_mark hf (e ++ quotationMark :: c)
    rw [count_mark he] at hcount
    by_cases hc : quotationMark ∈ c
    · have hmore := List.count_pos_iff.mpr hc
      refine iff_of_false (fun heq => ?_) ?_
      · have hlength := hlengths heq
        simp only [List.length_append, List.length_cons] at hlength
        omega
      · rintro (⟨htwo, -⟩ | ⟨hone, -⟩)
        · omega
        · omega
    · rw [List.count_eq_zero_of_not_mem hc] at hcount
      rw [doubled_mark hf, doubled_mark he, doubled_of_not_mem hc, hcount,
        List.append_assoc _ a' b', List.append_assoc _ a b, List.append_cancel_left_eq,
        append_eq_append_iff_of_left_out ha hb]
      simp

end FreeVMS.Rtl.Str
