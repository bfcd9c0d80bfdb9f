import FreeVMS.Lib.Wildcard
import FreeVMS.Rtl.StrDesc

/-!
# Wildcard matching

`str$match_wild` goes through the candidate once. At an asterisk it takes the first place where the
next character of the pattern is found, and it takes the wildcards behind an asterisk, and asterisks
in the candidate, for characters.
-/

namespace FreeVMS.Rtl.Str

open Lib.Wildcard

def strMatch : Nat := 2393113

def strNomatch : Nat := 2392584

/-- `'*'` -/
def asterisk : Byte := 42

/-- `'%'` -/
def percent : Byte := 37

/-! ## The code -/

/-- `calloc (len,1)` and `strcpy`: the string up to its first NUL, and zeros. Behind the buffer it is
    the rest of the string as long as that goes on, and else what was there. -/
def strcpyCopy (m : Memory) (behind : Nat → Byte) (p len : Nat) : Nat → Byte := fun i =>
  if ∀ j < i, m (p + j) ≠ 0 then m (p + i)
  else if i < len then 0
  else behind i

/-- `for ( s1_pos = 0; s1_pos < s1_len; s1_pos++  )`, on what is left of the candidate, with `s2_pos` and
    `result`. -/
def matchLoop (s2Copy : Nat → Byte) (s2Len : Nat) : List Byte → Nat → Nat → Nat × Nat
  | [], s2Pos, result => (s2Pos, result)
  | c :: s1, s2Pos, result =>
    if c = s2Copy s2Pos then matchLoop s2Copy s2Len s1 (s2Pos + 1) strMatch
    else if s2Copy s2Pos = percent then matchLoop s2Copy s2Len s1 (s2Pos + 1) strMatch
    else if s2Copy s2Pos = asterisk then
      -- `wild card last char`
      if s2Len ≤ s2Pos + 1 then (s2Pos + 1, strMatch)
      else if c = s2Copy (s2Pos + 1) then matchLoop s2Copy s2Len s1 (s2Pos + 2) result
      else matchLoop s2Copy s2Len s1 s2Pos result
    else (s2Pos, strNomatch)

/-- What is done behind the loop. -/
def matchEnd (s2Copy : Nat → Byte) (s2Len : Nat) (r : Nat × Nat) : Nat :=
  -- `Special case last char is * which can represent nothing`
  let s2Pos := if s2Copy r.1 = asterisk ∧ r.1 + 1 = s2Len then r.1 + 1 else r.1
  if s2Pos ≠ s2Len then strNomatch else r.2

/-- `str$match_wild` -/
def strMatchWild (m : Memory) (behind : Nat → Byte) (candidateString patternString : Descriptor) :
    Except Fault Nat := do
  let (s1Len, s1) ← strAnalyzeSdesc m candidateString
  let (s2Len, s2) ← strAnalyzeSdesc m patternString
  if s1 = 0 ∨ s2 = 0 then throw .nullPointer
  let s1Copy := (List.range s1Len.toNat).map (strcpyCopy m behind s1 s1Len.toNat)
  let s2Copy := strcpyCopy m behind s2 s2Len.toNat
  return matchEnd s2Copy s2Len.toNat (matchLoop s2Copy s2Len.toNat s1Copy 0 strMatch)

/-! ## The language -/

/-- What a character of a pattern stands for. -/
def token (c : Byte) : Token Byte :=
  if c = asterisk then .many else if c = percent then .one else .letter c

/-- The candidate is in the language of the pattern. -/
def InLanguage (candidate pattern : List Byte) : Prop := Matches candidate (pattern.map token)

/-- The character that is written for a token. -/
def written : Token Byte → Byte
  | .many => asterisk
  | .one => percent
  | .letter c => c

theorem written_token (c : Byte) : written (token c) = c := by
  unfold token
  split
  · next h => rw [h, written]
  · split
    · next h => rw [h, written]
    · rfl

/-- The extents of an asterisk that are found: the last one takes all or nothing, and a single asterisk
    where the rest begins with one; any other ends with the first asterisk of the candidate, or in front
    of the first character that is the next one of the pattern, wildcard or not. -/
def FirstExtent (e t : List Byte) : List (Token Byte) → Prop
  | [] => e.head? ≠ some asterisk ∨ e = [asterisk]
  | x :: _ =>
    (asterisk ∉ e ∧ written x ∉ e ∧ written x ≠ asterisk ∧ t.head? = some (written x)) ∨
      ∃ f, e = f ++ [asterisk] ∧ asterisk ∉ f ∧ written x ∉ f

/-- A match in which every asterisk has such an extent. -/
def FirstFit (candidate pattern : List Byte) : Prop :=
  Derives FirstExtent candidate (pattern.map token)

/-- What `strcpy` leaves of a string: it is cut at the first NUL and filled up with zeros. -/
def cut : List Byte → List Byte
  | [] => []
  | c :: s => if c = 0 then List.replicate (s.length + 1) 0 else c :: cut s

/-! ## At an asterisk -/

section Asterisk

variable {c : Byte} {s : List Byte} {x : Token Byte} {p : List (Token Byte)}

theorem firstExtent_cons_iff {e : List Byte} (hc : c ≠ asterisk) (hx : c ≠ written x) (t : List Byte) :
    FirstExtent (c :: e) t (x :: p) ↔ FirstExtent e t (x :: p) := by
  unfold FirstExtent
  apply or_congr
  · simp only [List.mem_cons, not_or, Ne.symm hc, Ne.symm hx, not_false_eq_true, true_and]
  · constructor
    · rintro ⟨f, hf, hstar, hnext⟩
      cases f with
      | nil =>
        simp only [List.nil_append, List.cons.injEq] at hf
        exact absurd hf.1 hc
      | cons d f =>
        simp only [List.cons_append, List.cons.injEq] at hf
        rw [List.mem_cons, not_or] at hstar hnext
        exact ⟨f, hf.2, hstar.2, hnext.2⟩
    · rintro ⟨f, rfl, hstar, hnext⟩
      refine ⟨c :: f, rfl, ?_, ?_⟩
      · rw [List.mem_cons, not_or]
        exact ⟨Ne.symm hc, hstar⟩
      · rw [List.mem_cons, not_or]
        exact ⟨Ne.symm hx, hnext⟩

/-- The last asterisk. -/
theorem derives_last_iff :
    Derives FirstExtent s [.many] ↔ s.head? ≠ some asterisk ∨ s = [asterisk] := by
  rw [derives_many_iff]
  constructor
  · rintro ⟨e, t, rfl, hextent, ht⟩
    obtain rfl := derives_end_iff.mp ht
    rwa [List.append_nil]
  · intro h
    exact ⟨s, [], (List.append_nil s).symm, h, .nil⟩

/-- Nothing is found at the end. -/
theorem not_derives_many_nil : ¬ Derives FirstExtent [] (.many :: x :: p) := by
  rw [derives_many_iff]
  rintro ⟨e, t, hsplit, hextent, _⟩
  obtain ⟨rfl, rfl⟩ := List.append_eq_nil_iff.mp hsplit.symm
  rcases hextent with ⟨_, _, _, hhead⟩ | ⟨f, hf, _⟩
  · cases hhead
  · exact absurd hf.symm (List.append_ne_nil_of_right_ne_nil f (List.cons_ne_nil _ _))

/-- An asterisk of the candidate is taken. -/
theorem derives_many_asterisk :
    Derives FirstExtent (asterisk :: s) (.many :: x :: p) ↔ Derives FirstExtent s (x :: p) := by
  rw [derives_many_iff]
  constructor
  · rintro ⟨e, t, hsplit, hextent, ht⟩
    rcases hextent with ⟨hstar, _, hne, hhead⟩ | ⟨f, rfl, hstar, _⟩
    · cases e with
      | nil =>
        rw [List.nil_append] at hsplit
        rw [← hsplit, List.head?_cons, Option.some.injEq] at hhead
        exact absurd hhead.symm hne
      | cons d e =>
        simp only [List.cons_append, List.cons.injEq] at hsplit
        exact absurd (hsplit.1 ▸ List.mem_cons_self) hstar
    · cases f with
      | nil =>
        simp only [List.nil_append, List.cons_append, List.cons.injEq, true_and] at hsplit
        rwa [hsplit]
      | cons d f =>
        simp only [List.cons_append, List.cons.injEq] at hsplit
        exact absurd (hsplit.1 ▸ List.mem_cons_self) hstar
  · intro h
    exact ⟨[asterisk], s, rfl, Or.inr ⟨[], rfl, List.not_mem_nil, List.not_mem_nil⟩, h⟩

/-- A character that is written for a token matches it. -/
theorem derives_written_iff (hc : written x ≠ asterisk) :
    Derives FirstExtent (written x :: s) (x :: p) ↔ Derives FirstExtent s p := by
  cases x with
  | many => exact absurd rfl hc
  | one => exact derives_one_iff
  | letter a => rw [written, derives_letter_iff, and_iff_right rfl]

/-- The next character of the pattern is found. -/
theorem derives_many_found (hc : written x ≠ asterisk) :
    Derives FirstExtent (written x :: s) (.many :: x :: p) ↔ Derives FirstExtent s p := by
  rw [derives_many_iff]
  constructor
  · rintro ⟨e, t, hsplit, hextent, ht⟩
    cases e with
    | nil =>
      rw [List.nil_append] at hsplit
      rwa [← hsplit, derives_written_iff hc] at ht
    | cons d e =>
      simp only [List.cons_append, List.cons.injEq] at hsplit
      rcases hextent with ⟨_, hnext, _⟩ | ⟨f, hf, _, hnext⟩
      · exact absurd (hsplit.1 ▸ List.mem_cons_self) hnext
      · cases f with
        | nil =>
          simp only [List.nil_append, List.cons.injEq] at hf
          exact absurd (hsplit.1.trans hf.1) hc
        | cons g f =>
          simp only [List.cons_append, List.cons.injEq] at hf
          exact absurd (hsplit.1.trans hf.1 ▸ List.mem_cons_self) hnext
  · intro h
    refine ⟨[], written x :: s, rfl, ?_, (derives_written_iff hc).mpr h⟩
    exact Or.inl ⟨List.not_mem_nil, List.not_mem_nil, hc, rfl⟩

/-- Any other character is skipped. -/
theorem derives_many_skip (hc : c ≠ asterisk) (hx : c ≠ written x) :
    Derives FirstExtent (c :: s) (.many :: x :: p) ↔ Derives FirstExtent s (.many :: x :: p) := by
  rw [derives_many_iff, derives_many_iff]
  constructor
  · rintro ⟨e, t, hsplit, hextent, ht⟩
    cases e with
    | nil =>
      rw [List.nil_append] at hsplit
      rcases hextent with ⟨_, _, _, hhead⟩ | ⟨f, hf, _⟩
      · rw [← hsplit, List.head?_cons, Option.some.injEq] at hhead
        exact absurd hhead hx
      · exact absurd hf.symm (List.append_ne_nil_of_right_ne_nil f (List.cons_ne_nil _ _))
    | cons d e =>
      simp only [List.cons_append, List.cons.injEq] at hsplit
      obtain ⟨rfl, hsplit⟩ := hsplit
      exact ⟨e, t, hsplit, (firstExtent_cons_iff hc hx t).mp hextent, ht⟩
  · rintro ⟨e, t, rfl, hextent, ht⟩
    exact ⟨c :: e, t, rfl, (firstExtent_cons_iff hc hx t).mpr hextent, ht⟩

end Asterisk

/-! ## The loop -/

section Loop

variable {s2Copy : Nat → Byte} {s2Len : Nat}

/-- What the routine returns if it is at `s2Pos` with the rest of the candidate. -/
def verdict (s2Copy : Nat → Byte) (s2Len : Nat) (s1 : List Byte) (s2Pos : Nat) : Nat :=
  matchEnd s2Copy s2Len (matchLoop s2Copy s2Len s1 s2Pos strMatch)

/-- What is left of the pattern. -/
def rest (s2Copy : Nat → Byte) (s2Len s2Pos : Nat) : List (Token Byte) :=
  (((List.range s2Len).map s2Copy).drop s2Pos).map token

theorem rest_end : rest s2Copy s2Len s2Len = [] := by
  rw [rest, List.drop_of_length_le (by simp), List.map_nil]

theorem rest_cons {s2Pos : Nat} (h : s2Pos < s2Len) :
    rest s2Copy s2Len s2Pos = token (s2Copy s2Pos) :: rest s2Copy s2Len (s2Pos + 1) := by
  rw [rest, List.drop_eq_getElem_cons (by simpa using h), List.map_cons, List.getElem_map,
    List.getElem_range]
  rfl

theorem matchLoop_result {s1 : List Byte} : ∀ {s2Pos : Nat},
    (matchLoop s2Copy s2Len s1 s2Pos strMatch).2 = strMatch ∨
      (matchLoop s2Copy s2Len s1 s2Pos strMatch).2 = strNomatch := by
  induction s1 with
  | nil => exact fun {_} => Or.inl rfl
  | cons c s1 ih =>
    intro s2Pos
    unfold matchLoop
    split_ifs
    · exact ih
    · exact ih
    · exact Or.inl rfl
    · exact ih
    · exact ih
    · exact Or.inr rfl

theorem verdict_cases (s1 : List Byte) (s2Pos : Nat) :
    verdict s2Copy s2Len s1 s2Pos = strMatch ∨ verdict s2Copy s2Len s1 s2Pos = strNomatch := by
  simp only [verdict, matchEnd]
  split_ifs
  · exact Or.inr rfl
  · exact matchLoop_result
  · exact Or.inr rfl
  · exact matchLoop_result

/-- The position in the pattern only grows. -/
theorem le_matchLoop {s1 : List Byte} : ∀ {s2Pos result : Nat},
    s2Pos ≤ (matchLoop s2Copy s2Len s1 s2Pos result).1 := by
  induction s1 with
  | nil => exact fun {_ _} => le_refl _
  | cons c s1 ih =>
    intro s2Pos result
    unfold matchLoop
    split_ifs
    · exact (Nat.le_succ _).trans ih
    · exact (Nat.le_succ _).trans ih
    · exact Nat.le_succ _
    · exact (Nat.le_add_right _ 2).trans ih
    · exact ih
    · exact le_refl _

theorem matchEnd_end (result : Nat) : matchEnd s2Copy s2Len (s2Len, result) = result := by
  simp only [matchEnd]
  split_ifs with hstar hlen hlen
  · omega
  · rfl
  · exact absurd rfl hlen
  · rfl

theorem matchEnd_past {r : Nat × Nat} (h : s2Len < r.1) :
    matchEnd s2Copy s2Len r = strNomatch := by
  simp only [matchEnd]
  split_ifs with hstar hlen hlen
  · rfl
  · omega
  · rfl
  · omega

/-- Behind the pattern nothing of the candidate may be left. -/
theorem verdict_done (c : Byte) (s1 : List Byte) :
    verdict s2Copy s2Len (c :: s1) s2Len = strNomatch := by
  have hpast : ∀ result, matchEnd s2Copy s2Len
      (matchLoop s2Copy s2Len s1 (s2Len + 1) result) = strNomatch :=
    fun _ => matchEnd_past (Nat.lt_of_succ_le le_matchLoop)
  unfold verdict matchLoop
  split_ifs with hsame hone hmany hlast hnext
  · exact hpast _
  · exact hpast _
  · exact matchEnd_past (Nat.lt_succ_self _)
  · omega
  · omega
  · exact matchEnd_end strNomatch

theorem verdict_nil_end : verdict s2Copy s2Len [] s2Len = strMatch :=
  matchEnd_end strMatch

/-- At the end of the candidate, an asterisk may be left of the pattern. -/
theorem verdict_nil {s2Pos : Nat} (h : s2Pos < s2Len) :
    verdict s2Copy s2Len [] s2Pos = strMatch ↔
      s2Copy s2Pos = asterisk ∧ s2Pos + 1 = s2Len := by
  have hloop : matchLoop s2Copy s2Len [] s2Pos strMatch = (s2Pos, strMatch) := rfl
  rw [verdict, hloop]
  simp only [matchEnd]
  split_ifs with hlast hlen hlen
  · exact absurd hlast.2 hlen
  · exact iff_of_true rfl hlast
  · exact iff_of_false (by decide) hlast
  · omega

theorem matchEnd_nomatch (s2Pos : Nat) :
    matchEnd s2Copy s2Len (s2Pos, strNomatch) = strNomatch := by
  simp only [matchEnd, ite_self]

/-- A character of the pattern that is no asterisk. -/
theorem verdict_step {c : Byte} {s1 : List Byte} {s2Pos : Nat} (hstar : s2Copy s2Pos ≠ asterisk) :
    verdict s2Copy s2Len (c :: s1) s2Pos =
      if c = s2Copy s2Pos ∨ s2Copy s2Pos = percent then verdict s2Copy s2Len s1 (s2Pos + 1)
      else strNomatch := by
  rw [verdict, matchLoop]
  by_cases hsame : c = s2Copy s2Pos
  · rw [if_pos hsame, if_pos (Or.inl hsame), verdict]
  · rw [if_neg hsame]
    by_cases hone : s2Copy s2Pos = percent
    · rw [if_pos hone, if_pos (Or.inr hone), verdict]
    · rw [if_neg hone, if_neg hstar, if_neg (not_or.mpr ⟨hsame, hone⟩), matchEnd_nomatch]

/-- An asterisk of the candidate at an asterisk of the pattern. -/
theorem verdict_asterisk {s1 : List Byte} {s2Pos : Nat} (hstar : s2Copy s2Pos = asterisk) :
    verdict s2Copy s2Len (asterisk :: s1) s2Pos = verdict s2Copy s2Len s1 (s2Pos + 1) := by
  rw [verdict, matchLoop, if_pos hstar.symm, verdict]

/-- Another character at the last asterisk. -/
theorem verdict_last {c : Byte} {s1 : List Byte} {s2Pos : Nat} (hstar : s2Copy s2Pos = asterisk)
    (hc : c ≠ asterisk) (hlast : s2Pos + 1 = s2Len) :
    verdict s2Copy s2Len (c :: s1) s2Pos = strMatch := by
  have hpercent : asterisk ≠ percent := by decide
  rw [verdict, matchLoop, hstar, if_neg hc, if_neg hpercent, if_pos rfl, if_pos (by omega)]
  rw [hlast, matchEnd_end]

/-- And at another one. -/
theorem verdict_many {c : Byte} {s1 : List Byte} {s2Pos : Nat} (hstar : s2Copy s2Pos = asterisk)
    (hc : c ≠ asterisk) (hlast : s2Pos + 1 < s2Len) :
    verdict s2Copy s2Len (c :: s1) s2Pos =
      if c = s2Copy (s2Pos + 1) then verdict s2Copy s2Len s1 (s2Pos + 2)
      else verdict s2Copy s2Len s1 s2Pos := by
  have hpercent : asterisk ≠ percent := by decide
  rw [verdict, matchLoop, hstar, if_neg hc, if_neg hpercent, if_pos rfl, if_neg (by omega)]
  by_cases hnext : c = s2Copy (s2Pos + 1)
  · rw [if_pos hnext, if_pos hnext, verdict]
  · rw [if_neg hnext, if_neg hnext, verdict]

theorem strNomatch_ne_strMatch : strNomatch ≠ strMatch := by decide

/-- The end of the candidate. -/
theorem verdict_nil_iff {s2Pos : Nat} (hle : s2Pos ≤ s2Len) :
    verdict s2Copy s2Len [] s2Pos = strMatch ↔
      Derives FirstExtent [] (rest s2Copy s2Len s2Pos) := by
  rcases Nat.eq_or_lt_of_le hle with rfl | hlt
  · rw [rest_end, derives_end_iff]
    exact iff_of_true verdict_nil_end rfl
  · rw [verdict_nil hlt, rest_cons hlt]
    by_cases hstar : s2Copy s2Pos = asterisk
    · rw [hstar, token, if_pos rfl]
      by_cases hlast : s2Pos + 1 = s2Len
      · rw [hlast, rest_end, derives_last_iff]
        exact iff_of_true ⟨rfl, rfl⟩ (Or.inl (Option.some_ne_none asterisk).symm)
      · rw [rest_cons (by omega)]
        exact iff_of_false (fun h => hlast h.2) not_derives_many_nil
    · refine iff_of_false (fun h => hstar h.1) ?_
      rw [token, if_neg hstar]
      split_ifs
      · exact not_derives_nil_one
      · exact not_derives_nil_letter

section Step

variable {c : Byte} {s1 : List Byte} {s2Pos : Nat}
  (ih : ∀ {s2Pos : Nat}, s2Pos ≤ s2Len → (verdict s2Copy s2Len s1 s2Pos = strMatch ↔
    Derives FirstExtent s1 (rest s2Copy s2Len s2Pos)))
include ih

/-- One character of the candidate at the last asterisk. -/
theorem verdict_last_iff (hstar : s2Copy s2Pos = asterisk) (hlast : s2Pos + 1 = s2Len) :
    verdict s2Copy s2Len (c :: s1) s2Pos = strMatch ↔ Derives FirstExtent (c :: s1) [.many] := by
  rw [derives_last_iff]
  by_cases hc : c = asterisk
  · rw [hc, verdict_asterisk hstar, ih hlast.le, hlast, rest_end, derives_end_iff]
    simp
  · rw [verdict_last hstar hc hlast]
    refine iff_of_true rfl (Or.inl ?_)
    rw [List.head?_cons, ne_eq, Option.some.injEq]
    exact hc

/-- One character of the candidate at an asterisk with something behind it. -/
theorem verdict_many_iff (hstar : s2Copy s2Pos = asterisk) (hnext : s2Pos + 1 < s2Len) :
    verdict s2Copy s2Len (c :: s1) s2Pos = strMatch ↔
      Derives FirstExtent (c :: s1)
        (.many :: token (s2Copy (s2Pos + 1)) :: rest s2Copy s2Len (s2Pos + 2)) := by
  have hlt : s2Pos < s2Len := by omega
  have hwritten := written_token (s2Copy (s2Pos + 1))
  by_cases hc : c = asterisk
  · rw [hc, verdict_asterisk hstar, ih hnext.le, derives_many_asterisk, rest_cons hnext]
  · rw [verdict_many hstar hc hnext]
    by_cases hfound : c = s2Copy (s2Pos + 1)
    · rw [if_pos hfound, ih hnext]
      rw [← hfound] at hwritten ⊢
      have hne : written (token c) ≠ asterisk := by rwa [hwritten]
      have hiff := derives_many_found (s := s1) (p := rest s2Copy s2Len (s2Pos + 2)) hne
      rw [hwritten] at hiff
      exact hiff.symm
    · have hskip : c ≠ written (token (s2Copy (s2Pos + 1))) := by rwa [hwritten]
      have hmany : token (s2Copy s2Pos) = .many := if_pos hstar
      rw [if_neg hfound, ih hlt.le, derives_many_skip hc hskip, rest_cons hlt, hmany,
        rest_cons hnext]

/-- One character of the candidate at anything else. -/
theorem verdict_step_iff (hstar : s2Copy s2Pos ≠ asterisk) (hlt : s2Pos < s2Len) :
    verdict s2Copy s2Len (c :: s1) s2Pos = strMatch ↔
      Derives FirstExtent (c :: s1) (token (s2Copy s2Pos) :: rest s2Copy s2Len (s2Pos + 1)) := by
  rw [verdict_step hstar, token, if_neg hstar]
  by_cases hone : s2Copy s2Pos = percent
  · rw [if_pos (Or.inr hone), if_pos hone, derives_one_iff, ih hlt]
  · rw [if_neg hone, derives_letter_iff, ← ih hlt]
    by_cases hsame : c = s2Copy s2Pos
    · rw [if_pos (Or.inl hsame), and_iff_right hsame]
    · rw [if_neg (not_or.mpr ⟨hsame, hone⟩)]
      exact iff_of_false strNomatch_ne_strMatch fun h => hsame h.1

end Step

/-- **The loop finds the matches with first extents**, and no others. -/
theorem verdict_iff {s1 : List Byte} : ∀ {s2Pos : Nat}, s2Pos ≤ s2Len →
    (verdict s2Copy s2Len s1 s2Pos = strMatch ↔
      Derives FirstExtent s1 (rest s2Copy s2Len s2Pos)) := by
  induction s1 with
  | nil => exact verdict_nil_iff
  | cons c s1 ih =>
    intro s2Pos hle
    rcases Nat.eq_or_lt_of_le hle with rfl | hlt
    · rw [verdict_done, rest_end, derives_end_iff]
      exact iff_of_false strNomatch_ne_strMatch (List.cons_ne_nil c s1)
    · rw [rest_cons hlt]
      by_cases hstar : s2Copy s2Pos = asterisk
      · have hmany : token (s2Copy s2Pos) = .many := if_pos hstar
        rw [hmany]
        by_cases hlast : s2Pos + 1 = s2Len
        · rw [hlast, rest_end]
          exact verdict_last_iff ih hstar hlast
        · have hnext : s2Pos + 1 < s2Len := by omega
          rw [rest_cons hnext]
          exact verdict_many_iff ih hstar hnext
      · exact verdict_step_iff ih hstar hlt

end Loop

/-! ## The call -/

theorem copy_eq_cut (m : Memory) (n : Nat) : ∀ p : Nat,
    (List.range n).map (fun i => if ∀ j < i, m (p + j) ≠ 0 then m (p + i) else 0) =
      cut (bytesAt m p n) := by
  induction n with
  | zero => exact fun _ => rfl
  | succ n ih =>
    intro p
    rw [bytesAt_succ, cut, List.range_succ_eq_map, List.map_cons, List.map_map,
      if_pos (fun j hj => absurd hj (Nat.not_lt_zero j)), Nat.add_zero]
    by_cases hnul : m p = 0
    · rw [if_pos hnul, hnul, length_bytesAt, List.replicate_succ, List.cons_inj_right,
        List.eq_replicate_iff]
      refine ⟨by simp, ?_⟩
      intro b hb
      obtain ⟨i, _, rfl⟩ := List.mem_map.mp hb
      exact if_neg fun h => h 0 (Nat.succ_pos i) hnul
    · rw [if_neg hnul, List.cons_inj_right, ← ih]
      apply List.map_congr_left
      intro i _
      have hshift : (∀ j < i + 1, m (p + j) ≠ 0) ↔ ∀ j < i, m (p + 1 + j) ≠ 0 := by
        constructor
        · intro h j hj
          have hj' := h (j + 1) (Nat.succ_lt_succ hj)
          rwa [Nat.add_comm j, ← Nat.add_assoc] at hj'
        · intro h j hj
          cases j with
          | zero => exact hnul
          | succ j =>
            rw [Nat.add_comm j, ← Nat.add_assoc]
            exact h j (Nat.lt_of_succ_lt_succ hj)
      have hplace : p + (i + 1) = p + 1 + i := by omega
      simp only [Function.comp_apply, Nat.succ_eq_add_one, hshift, hplace]

/-- In the buffer there is what `strcpy` leaves of the string. -/
theorem strcpyCopy_eq_cut (m : Memory) (behind : Nat → Byte) (p len : Nat) :
    (List.range len).map (strcpyCopy m behind p len) = cut (bytesAt m p len) := by
  rw [← copy_eq_cut]
  apply List.map_congr_left
  intro i hi
  rw [strcpyCopy, if_pos (List.mem_range.mp hi)]

section Call

variable {m : Memory} {behind : Nat → Byte} {candidateString patternString : Descriptor}
  {s1Len s2Len : BitVec 16} {s1 s2 : Nat}

/-- **What `str$match_wild` returns**: whether there is a match with first extents, once both strings
    are cut. -/
theorem strMatchWild_spec (h1 : strAnalyzeSdesc m candidateString = .ok (s1Len, s1))
    (h2 : strAnalyzeSdesc m patternString = .ok (s2Len, s2)) (hs1 : s1 ≠ 0) (hs2 : s2 ≠ 0) :
    ∃ result, strMatchWild m behind candidateString patternString = .ok result ∧
      (result = strMatch ∨ result = strNomatch) ∧
      (result = strMatch ↔
        FirstFit (cut (bytesAt m s1 s1Len.toNat)) (cut (bytesAt m s2 s2Len.toNat))) := by
  refine ⟨verdict (strcpyCopy m behind s2 s2Len.toNat) s2Len.toNat
    (cut (bytesAt m s1 s1Len.toNat)) 0, ?_, verdict_cases _ _, ?_⟩
  · have hnull : ¬ (s1 = 0 ∨ s2 = 0) := not_or.mpr ⟨hs1, hs2⟩
    rw [strMatchWild, h1, h2]
    simp only [bind, Except.bind, if_neg hnull, strcpyCopy_eq_cut]
    rfl
  · rw [verdict_iff (Nat.zero_le _), FirstFit, rest, List.drop_zero, strcpyCopy_eq_cut]

/-- The answer is the one of the language. -/
def DecidesLanguage (m : Memory) (behind : Nat → Byte) (candidateString patternString : Descriptor)
    (candidate pattern : List Byte) : Prop :=
  ∃ result, strMatchWild m behind candidateString patternString = .ok result ∧
    (InLanguage candidate pattern → result = strMatch) ∧
    (¬ InLanguage candidate pattern → result = strNomatch)

/-- Neither pointer is null, and the candidate is in the language exactly if, with both strings cut,
    it has a match with first extents. -/
structure MatchHolds (s1 s2 : Nat) (candidate pattern : List Byte) : Prop where
  candidate_ne : s1 ≠ 0
  pattern_ne : s2 ≠ 0
  first : InLanguage candidate pattern → FirstFit (cut candidate) (cut pattern)
  uncut : FirstFit (cut candidate) (cut pattern) → InLanguage candidate pattern

theorem strMatchWild_null (h1 : strAnalyzeSdesc m candidateString = .ok (s1Len, s1))
    (h2 : strAnalyzeSdesc m patternString = .ok (s2Len, s2)) (hnull : s1 = 0 ∨ s2 = 0) :
    strMatchWild m behind candidateString patternString = .error .nullPointer := by
  rw [strMatchWild, h1, h2]
  simp only [bind, Except.bind, if_pos hnull]
  rfl

theorem cut_of_not_mem {s : List Byte} (h : 0 ∉ s) : cut s = s := by
  induction s with
  | nil => rfl
  | cons c s ih =>
    rw [List.mem_cons, not_or] at h
    rw [cut, if_neg (Ne.symm h.1), ih h.2]

/-- **Without a NUL in the strings, a match that is found is one.** -/
theorem inLanguage_of_match (h1 : strAnalyzeSdesc m candidateString = .ok (s1Len, s1))
    (h2 : strAnalyzeSdesc m patternString = .ok (s2Len, s2))
    (hcandidate : 0 ∉ bytesAt m s1 s1Len.toNat) (hpattern : 0 ∉ bytesAt m s2 s2Len.toNat)
    (hmatch : strMatchWild m behind candidateString patternString = .ok strMatch) :
    InLanguage (bytesAt m s1 s1Len.toNat) (bytesAt m s2 s2Len.toNat) := by
  by_cases hnull : s1 = 0 ∨ s2 = 0
  · rw [strMatchWild_null h1 h2 hnull] at hmatch
    cases hmatch
  · rw [not_or] at hnull
    obtain ⟨result, hrun, _, hiff⟩ := 
      @strMatchWild_spec m behind _ _ _ _ _ _ h1 h2 hnull.1 hnull.2
    rw [hmatch] at hrun
    have hfirst := hiff.mp (Except.ok.inj hrun).symm
    rw [cut_of_not_mem hcandidate, cut_of_not_mem hpattern] at hfirst
    exact hfirst.matches

end Call

end FreeVMS.Rtl.Str
