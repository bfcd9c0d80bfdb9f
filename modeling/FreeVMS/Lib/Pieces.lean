import Mathlib.Data.List.Infix
import Mathlib.Data.List.TakeWhile

/-!
# Pieces

A list split at a separator. The piece number `n` is what comes behind the first `n` separators, up to
the next one; there is none when there are fewer separators.
-/

namespace FreeVMS.Lib.Pieces

variable {α : Type} [DecidableEq α] {c : α} {s w rest : List α} {n : Nat}

/-- `rest` is what comes in `s` behind its first `n` separators, with which `w` ends. -/
structure Behind (c : α) (n : Nat) (s w rest : List α) : Prop where
  append : w ++ rest = s
  count : w.count c = n
  first : ∀ i, i < w.length → (w.take i).count c < n

theorem behind_zero (c : α) (s : List α) : Behind c 0 s [] s :=
  ⟨rfl, rfl, fun _ hi => absurd hi (Nat.not_lt_zero _)⟩

theorem Behind.separator (h : Behind c n s w rest) : Behind c (n + 1) (c :: s) (c :: w) rest := by
  constructor
  · exact congrArg (c :: ·) h.append
  · rw [List.count_cons_self, h.count]
  · intro i hi
    cases i with
    | zero => exact Nat.succ_pos n
    | succ i =>
      rw [List.take_succ_cons, List.count_cons_self]
      exact Nat.succ_lt_succ (h.first i (Nat.lt_of_succ_lt_succ hi))

theorem Behind.letter {x : α} (hx : x ≠ c) (h : Behind c (n + 1) s w rest) :
    Behind c (n + 1) (x :: s) (x :: w) rest := by
  constructor
  · exact congrArg (x :: ·) h.append
  · rw [List.count_cons_of_ne hx, h.count]
  · intro i hi
    cases i with
    | zero => exact Nat.succ_pos n
    | succ i =>
      rw [List.take_succ_cons, List.count_cons_of_ne hx]
      exact h.first i (Nat.lt_of_succ_lt_succ hi)

theorem getElem?_splitOn_letter {x : α} (hx : x ≠ c) (s : List α) (n : Nat) :
    ((x :: s).splitOn c)[n + 1]? = (s.splitOn c)[n + 1]? := by
  have hne : ¬ (x == c) = true := by simpa using hx
  obtain ⟨piece, pieces, hpieces⟩ :=
    List.exists_cons_of_ne_nil (List.splitOnP_ne_nil (· == c) s)
  rw [List.splitOn, List.splitOn, List.splitOnP_cons_eq_if_modifyHead, if_neg hne, hpieces]
  rfl

theorem getElem?_splitOn_separator (s : List α) (n : Nat) :
    ((c :: s).splitOn c)[n + 1]? = (s.splitOn c)[n]? := by
  rw [List.splitOn, List.splitOnP_cons_eq_if_modifyHead, if_pos (beq_self_eq_true c)]
  rfl

theorem getElem?_splitOn_zero (s : List α) :
    (s.splitOn c)[0]? = some (s.takeWhile (· ≠ c)) := by
  induction s with
  | nil => rfl
  | cons x s ih =>
    obtain ⟨piece, pieces, hpieces⟩ :=
      List.exists_cons_of_ne_nil (List.splitOnP_ne_nil (· == c) s)
    rw [List.splitOn, hpieces] at ih
    rw [List.splitOn, List.splitOnP_cons_eq_if_modifyHead, hpieces]
    by_cases hx : x = c
    · subst hx
      simp
    · have hpiece : piece = s.takeWhile (· ≠ c) := Option.some.inj ih
      simp [hx, hpiece]

/-- Either there are too few separators, or there is something behind them, which begins with the
piece. -/
theorem piece_cases (c : α) (n : Nat) (s : List α) :
    (s.count c < n ∧ (s.splitOn c)[n]? = none) ∨
      ∃ w rest, Behind c n s w rest ∧ (s.splitOn c)[n]? = some (rest.takeWhile (· ≠ c)) := by
  induction s generalizing n with
  | nil =>
    cases n with
    | zero => exact Or.inr ⟨[], [], behind_zero c [], rfl⟩
    | succ n => exact Or.inl ⟨Nat.succ_pos n, rfl⟩
  | cons x s ih =>
    cases n with
    | zero => exact Or.inr ⟨[], x :: s, behind_zero c _, getElem?_splitOn_zero _⟩
    | succ n =>
      by_cases hx : x = c
      · subst hx
        rw [getElem?_splitOn_separator, List.count_cons_self]
        rcases ih n with ⟨hcount, hnone⟩ | ⟨w, rest, hbehind, hpiece⟩
        · exact Or.inl ⟨Nat.succ_lt_succ hcount, hnone⟩
        · exact Or.inr ⟨x :: w, rest, hbehind.separator, hpiece⟩
      · rw [getElem?_splitOn_letter hx, List.count_cons_of_ne hx]
        rcases ih (n + 1) with ⟨hcount, hnone⟩ | ⟨w, rest, hbehind, hpiece⟩
        · exact Or.inl ⟨hcount, hnone⟩
        · exact Or.inr ⟨x :: w, rest, hbehind.letter hx, hpiece⟩

/-- What comes behind the first `n` separators is one thing. -/
theorem Behind.unique {w' rest' : List α} (h : Behind c n s w rest) (h' : Behind c n s w' rest') :
    w = w' ∧ rest = rest' := by
  have hbefore : ∀ {w w' rest rest' : List α}, Behind c n s w rest → Behind c n s w' rest' →
      ¬ w.length < w'.length := by
    intro w w' rest rest' h h' hlt
    have htake : w'.take w.length = w := by
      have heq := congrArg (List.take w.length) (h.append.trans h'.append.symm)
      rw [List.take_left, List.take_append_of_le_length (Nat.le_of_lt hlt)] at heq
      exact heq.symm
    have hfirst := h'.first w.length hlt
    rw [htake, h.count] at hfirst
    exact Nat.lt_irrefl n hfirst
  have hlength : w.length = w'.length :=
    Nat.le_antisymm (Nat.not_lt.mp (hbefore h' h)) (Nat.not_lt.mp (hbefore h h'))
  exact List.append_inj (h.append.trans h'.append.symm) hlength

theorem Behind.le_count (h : Behind c n s w rest) : n ≤ s.count c := by
  rw [← h.append, List.count_append, h.count]
  exact Nat.le_add_right _ _

theorem Behind.piece (h : Behind c n s w rest) :
    (s.splitOn c)[n]? = some (rest.takeWhile (· ≠ c)) := by
  rcases piece_cases c n s with ⟨hcount, -⟩ | ⟨w', rest', h', hpiece⟩
  · exact absurd h.le_count (Nat.not_le.mpr hcount)
  · rw [hpiece, (h.unique h').2]

/-- Behind the piece comes a separator. -/
theorem getElem_piece_end (h : (rest.takeWhile (· ≠ c)).length < rest.length) :
    rest[(rest.takeWhile (· ≠ c)).length] = c := by
  induction rest with
  | nil => exact absurd h (Nat.not_lt_zero _)
  | cons x rest ih =>
    by_cases hx : x = c
    · subst hx
      simp
    · have htake : (x :: rest).takeWhile (· ≠ c) = x :: rest.takeWhile (· ≠ c) := by simp [hx]
      simp only [htake, List.length_cons] at h
      simp only [htake, List.length_cons, List.getElem_cons_succ]
      exact ih (Nat.lt_of_succ_lt_succ h)

end FreeVMS.Lib.Pieces
