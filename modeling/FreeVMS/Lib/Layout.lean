import Mathlib.Data.List.Basic

/-!
# Text on a roll

What is typed stands on lines of one width on a roll without an end.  A line that is full is finished; a
tabulator goes to the next stop and a newline to the end of the line, each over at least one blank.
-/

namespace FreeVMS.Layout

variable {α : Type}

/-- The lines that are finished, and the one that is written. -/
structure Roll (α : Type) where
  lines : List (List α)
  line : List α
deriving DecidableEq, Repr

/-- What a character does. -/
inductive Stroke (α : Type) where
  | type (c : α)
  | tab
  | newline
  | stay
deriving DecidableEq, Repr

/-- Blanks up to the next multiple of `m`. -/
def fill (m : Nat) (blank : α) (line : List α) : List α :=
  line ++ List.replicate (m - line.length % m) blank

/-- A full line is finished. -/
def Roll.wrap (w : Nat) (r : Roll α) : Roll α :=
  if r.line.length = w then ⟨r.lines ++ [r.line], []⟩ else r

/-- The line after a character, which may be full. -/
def strike (w t : Nat) (blank : α) (s : Stroke α) (line : List α) : List α :=
  match s with
  | .type c => line ++ [c]
  | .tab => fill t blank line
  | .newline => fill w blank line
  | .stay => line

def Roll.write (w t : Nat) (blank : α) (s : Stroke α) (r : Roll α) : Roll α :=
  Roll.wrap w { r with line := strike w t blank s r.line }

/-- All lines have the width, and the last one is not full. -/
structure Wide (w : Nat) (r : Roll α) : Prop where
  lines : ∀ l ∈ r.lines, l.length = w
  line : r.line.length < w

variable {w t m : Nat} {blank : α} {r : Roll α} {line : List α}

theorem length_fill : (fill m blank line).length = line.length + (m - line.length % m) := by
  rw [fill, List.length_append, List.length_replicate]

/-- The next stop is not behind the end of the line. -/
theorem length_fill_le (hm : 0 < m) (hdvd : m ∣ w) (h : line.length < w) :
    (fill m blank line).length ≤ w := by
  obtain ⟨n, rfl⟩ := hdvd
  have hlt := Nat.mod_lt line.length hm
  have hdiv := Nat.div_add_mod line.length m
  have hstop : (fill m blank line).length = m * (line.length / m + 1) := by
    rw [length_fill, Nat.mul_succ]
    omega
  rw [hstop]
  exact Nat.mul_le_mul_left m (Nat.div_lt_of_lt_mul h)

/-- A newline ends the line. -/
theorem length_fill_self (h : line.length < w) : (fill w blank line).length = w := by
  rw [length_fill, Nat.mod_eq_of_lt h]
  omega

theorem length_strike_le (ht : 0 < t) (hdvd : t ∣ w) (h : line.length < w) (s : Stroke α) :
    (strike w t blank s line).length ≤ w := by
  cases s with
  | type c =>
    rw [strike, List.length_append]
    exact h
  | tab => exact length_fill_le ht hdvd h
  | newline => exact Nat.le_of_eq (length_fill_self h)
  | stay => exact Nat.le_of_lt h

theorem Wide.wrap (hlines : ∀ l ∈ r.lines, l.length = w) (hline : r.line.length ≤ w) (hw : 0 < w) :
    Wide w (r.wrap w) := by
  rw [Roll.wrap]
  split
  · rename_i hfull
    refine ⟨fun l hl => ?_, hw⟩
    rcases List.mem_append.mp hl with hl | hl
    · exact hlines l hl
    · obtain rfl := List.mem_singleton.mp hl
      exact hfull
  · rename_i hfull
    exact ⟨hlines, Nat.lt_of_le_of_ne hline hfull⟩

/-- **One character.** -/
theorem Wide.write (h : Wide w r) (ht : 0 < t) (hdvd : t ∣ w) (s : Stroke α) :
    Wide w (r.write w t blank s) :=
  Wide.wrap h.lines (length_strike_le ht hdvd h.line s) (Nat.zero_lt_of_lt h.line)

/-- Characters that fit on the line. -/
theorem foldl_type (cs : List α) (h : r.line.length + cs.length < w) :
    (cs.map Stroke.type).foldl (fun r s => Roll.write w t blank s r) r = { r with line := r.line ++ cs } := by
  induction cs generalizing r with
  | nil => rw [List.append_nil]; rfl
  | cons c cs ih =>
    rw [List.length_cons] at h
    have hfit : ¬ (r.line ++ [c]).length = w := by
      rw [List.length_append, List.length_singleton]
      omega
    have hstep : r.write w t blank (.type c) = { r with line := r.line ++ [c] } := if_neg hfit
    rw [List.map_cons, List.foldl_cons, hstep, ih]
    · rw [List.append_assoc, List.singleton_append]
    · rw [List.length_append, List.length_singleton]
      omega

/-- A line with its newline, on an empty line. -/
theorem foldl_line (cs : List α) (h : cs.length < w) (hempty : r.line = []) :
    (cs.map Stroke.type ++ [Stroke.newline]).foldl (fun r s => Roll.write w t blank s r) r =
      ⟨r.lines ++ [cs ++ List.replicate (w - cs.length) blank], []⟩ := by
  have hfits : r.line.length + cs.length < w := by
    rw [hempty]
    simpa using h
  rw [List.foldl_append, foldl_type cs hfits, hempty, List.nil_append]
  have hfill : fill w blank cs = cs ++ List.replicate (w - cs.length) blank := by
    rw [fill, Nat.mod_eq_of_lt h]
  have hstep : Roll.write w t blank .newline ⟨r.lines, cs⟩ = ⟨r.lines ++ [fill w blank cs], []⟩ :=
    if_pos (length_fill_self h)
  rw [List.foldl_cons, List.foldl_nil, hstep, hfill]

/-- **Lines that fit.** -/
theorem foldl_lines (ls : List (List α)) (h : ∀ l ∈ ls, l.length < w) (hempty : r.line = []) :
    (ls.flatMap fun l => l.map Stroke.type ++ [Stroke.newline]).foldl (fun r s => Roll.write w t blank s r) r =
      ⟨r.lines ++ ls.map fun l => l ++ List.replicate (w - l.length) blank, []⟩ := by
  induction ls generalizing r with
  | nil =>
    rw [List.map_nil, List.append_nil, ← hempty]
    rfl
  | cons l ls ih =>
    rw [List.flatMap_cons, List.foldl_append, foldl_line l (h l List.mem_cons_self) hempty,
      ih (fun l' hl' => h l' (List.mem_cons_of_mem _ hl')) rfl, List.map_cons, List.append_assoc,
      List.singleton_append]

end FreeVMS.Layout
