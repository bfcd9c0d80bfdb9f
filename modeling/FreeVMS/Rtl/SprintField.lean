import FreeVMS.Rtl.SprintPrints

/-!
# Conversion specifications as they are documented

A specification with flags, a width and a precision, as `printf` has them, and how the source takes it
apart: as it is written, except that a `*` for the width is taken as the conversion character.
-/

namespace FreeVMS.Rtl.Sprint

def Count.text : Count → List Byte
  | .absent => []
  | .star => [chr '*']
  | .decimal ds => ds

/-- A number is not empty and of digits only. -/
def Count.IsNumeral : Count → Prop
  | .decimal ds => ds ≠ [] ∧ Digits ds
  | _ => True

/-- Flags, width and precision of a specification; a precision starts with a point. -/
structure Field where
  flags : List Byte
  width : Count
  precision : Option Count
  flags_isFlag : ∀ c ∈ flags, isFlag c = true
  width_isNumeral : width.IsNumeral
  /-- a zero would be a flag -/
  width_head : width.digits.head? ≠ some (chr '0')
  precision_isNumeral : (precision.getD .absent).IsNumeral

def precisionText : Option Count → List Byte
  | none => []
  | some n => chr '.' :: n.text

def Field.text (f : Field) : List Byte := f.flags ++ (f.width.text ++ precisionText f.precision)

/-- Stops the flags, the width and the precision. -/
def Stops (x : Byte) : Prop :=
  isFlag x = false ∧ isDigit x = false ∧ upToNine x = false ∧ x ≠ chr '*' ∧ x ≠ chr '.'

instance (x : Byte) : Decidable (Stops x) := inferInstanceAs (Decidable (_ ∧ _))

theorem stops_of_isModifier {x : Byte} (h : isModifier x = true) : Stops x := by
  have hor : x = chr 'h' ∨ x = chr 'l' ∨ x = chr 'L' := by simpa [isModifier] using h
  rcases hor with rfl | rfl | rfl
  · decide
  · decide
  · decide

theorem stops_of_isLetter {x : Byte} (h : IsLetter x) : Stops x :=
  ⟨h.1, h.2.1, h.2.2.1, h.2.2.2.2.1, h.2.2.2.2.2⟩

theorem takeWhile_stop {q : Byte → Bool} {u v : List Byte} {x : Byte} (hu : ∀ c ∈ u, q c = true)
    (hx : q x = false) : (u ++ x :: v).takeWhile q = u := by
  rw [List.takeWhile_append_of_pos hu, List.takeWhile_cons_of_neg (by simp [hx]), List.append_nil]

theorem dropWhile_stop {q : Byte → Bool} {u v : List Byte} {x : Byte} (hu : ∀ c ∈ u, q c = true)
    (hx : q x = false) : (u ++ x :: v).dropWhile q = x :: v := by
  rw [List.dropWhile_append_of_pos hu, List.dropWhile_cons_of_neg (by simp [hx])]

theorem isDigit_of_digits {ds : List Byte} (h : Digits ds) : ∀ c ∈ ds, isDigit c = true :=
  fun c hc => decide_eq_true (h c hc)

theorem upToNine_of_digits {ds : List Byte} (h : Digits ds) : ∀ c ∈ ds, upToNine c = true :=
  fun c hc => decide_eq_true (h c hc).2

section

variable {x : Byte} {v : List Byte} {n : Count}

theorem widthOf_text (hn : n.IsNumeral) (hstar : n ≠ .star) (hx : isDigit x = false)
    (hxstar : x ≠ chr '*') : widthOf (n.text ++ x :: v) = (n, x :: v) := by
  cases n with
  | absent => simp [Count.text, widthOf, hx, hxstar]
  | star => exact absurd rfl hstar
  | decimal ds =>
    obtain ⟨hne, hdigits⟩ := hn
    have htake := takeWhile_stop (v := v) (isDigit_of_digits hdigits) hx
    have hdrop := dropWhile_stop (v := v) (isDigit_of_digits hdigits) hx
    cases ds with
    | nil => exact absurd rfl hne
    | cons c ds =>
      have hc := isDigit_of_digits hdigits c List.mem_cons_self
      have hcstar : c ≠ chr '*' := by
        rintro rfl
        exact absurd hc (by decide)
      rw [List.cons_append] at htake hdrop
      rw [Count.text, List.cons_append, widthOf, if_neg hcstar, if_pos hc, htake, hdrop]

theorem pointOf_text (hn : n.IsNumeral) (hx : Stops x) : pointOf (n.text ++ x :: v) = (n, x :: v) := by
  obtain ⟨-, hdigit, hnine, hxstar, -⟩ := hx
  cases n with
  | absent => simp [Count.text, pointOf, hdigit, hxstar]
  | star => simp [Count.text, pointOf]
  | decimal ds =>
    obtain ⟨hne, hdigits⟩ := hn
    have htake := takeWhile_stop (v := v) (upToNine_of_digits hdigits) hnine
    have hdrop := dropWhile_stop (v := v) (upToNine_of_digits hdigits) hnine
    cases ds with
    | nil => exact absurd rfl hne
    | cons c ds =>
      have hc := isDigit_of_digits hdigits c List.mem_cons_self
      have hcstar : c ≠ chr '*' := by
        rintro rfl
        exact absurd hc (by decide)
      rw [List.cons_append] at htake hdrop
      rw [Count.text, List.cons_append, pointOf, if_neg hcstar, if_pos hc, htake, hdrop]

theorem precisionOf_text {n : Option Count} (hn : (n.getD .absent).IsNumeral) (hx : Stops x) :
    precisionOf (precisionText n ++ x :: v) = (n.getD .absent, x :: v) := by
  cases n with
  | none => simp [precisionText, precisionOf, hx.2.2.2.2]
  | some n =>
    rw [precisionText, List.cons_append, precisionOf, if_pos rfl]
    exact pointOf_text hn hx

theorem modifierOf_text {m : Option Byte} (hm : ∀ c, m = some c → isModifier c = true)
    (hx : isModifier x = false) : modifierOf (m.toList ++ x :: v) = (m, x :: v) := by
  cases m with
  | none => simp [modifierOf, hx]
  | some c => simp [modifierOf, hm c rfl]

end

namespace Field

variable (f : Field) {m : Option Byte} {x : Byte}

/-- What stands behind the flags starts with a character that ends them. -/
theorem behind_flags (v : List Byte) (hx : Stops x) :
    ∃ y w, f.width.text ++ (precisionText f.precision ++ x :: v) = y :: w ∧ isFlag y = false := by
  have hwidth := f.width_isNumeral
  have hhead := f.width_head
  cases hn : f.width with
  | absent =>
    cases f.precision with
    | none => exact ⟨x, v, rfl, hx.1⟩
    | some n => exact ⟨chr '.', _, rfl, by decide⟩
  | star => exact ⟨chr '*', _, rfl, by decide⟩
  | decimal ds =>
    rw [hn] at hwidth hhead
    obtain ⟨hne, hdigits⟩ := hwidth
    cases ds with
    | nil => exact absurd rfl hne
    | cons c ds =>
      refine ⟨c, _, rfl, ?_⟩
      have hzero : c ≠ chr '0' := fun hc => hhead (by rw [hc]; rfl)
      have hc := hdigits c List.mem_cons_self
      have hnot (y : Byte) (hy : ¬ IsDigit y) : c ≠ y := by
        rintro rfl
        exact hy hc
      simp [isFlag, hzero, hnot (chr '-') (by decide), hnot (chr '+') (by decide),
        hnot (chr ' ') (by decide), hnot (chr '#') (by decide)]

/-- The head of what follows the precision. -/
theorem behind_precision (hm : ∀ c, m = some c → isModifier c = true) (hx : Stops x)
    (v : List Byte) : ∃ y w, m.toList ++ x :: v = y :: w ∧ Stops y := by
  cases m with
  | none => exact ⟨x, v, rfl, hx⟩
  | some c => exact ⟨c, x :: v, rfl, stops_of_isModifier (hm c rfl)⟩

/-- A specification is taken apart as it is written, if its width is not a `*`. -/
theorem pieces?_text (hstar : f.width ≠ .star) (hm : ∀ c, m = some c → isModifier c = true)
    (hx : IsLetter x) (rest : List Byte) :
    pieces? (f.text ++ (m.toList ++ x :: rest)) =
      some (⟨f.flags, f.width, f.precision.getD .absent, m, x⟩, rest) := by
  obtain ⟨y, v, htail, hy⟩ := behind_precision hm (stops_of_isLetter hx) rest
  obtain ⟨z, w, hbehind, hz⟩ := f.behind_flags v hy
  have hwidth : widthOf (z :: w) = (f.width, precisionText f.precision ++ y :: v) := by
    rw [← hbehind]
    cases hn : f.precision with
    | none => exact widthOf_text f.width_isNumeral hstar hy.2.1 hy.2.2.2.1
    | some n => exact widthOf_text f.width_isNumeral hstar (by decide) (by decide)
  have htext : f.text ++ (m.toList ++ x :: rest) = f.flags ++ z :: w := by
    rw [Field.text, htail, List.append_assoc, List.append_assoc, hbehind]
  rw [htext]
  simp only [pieces?, takeWhile_stop f.flags_isFlag hz, dropWhile_stop f.flags_isFlag hz, hwidth,
    precisionOf_text f.precision_isNumeral hy]
  rw [← htail, modifierOf_text hm hx.2.2.2.1]

/-- A `*` for the width is the conversion character, and what follows it is text. -/
theorem pieces?_star (hstar : f.width = .star) (v : List Byte) :
    pieces? (f.text ++ v) =
      some (⟨f.flags, .star, .absent, none, chr '*'⟩, precisionText f.precision ++ v) := by
  have htext : f.text ++ v = f.flags ++ chr '*' :: (precisionText f.precision ++ v) := by
    rw [Field.text, hstar]
    simp [Count.text]
  have hflag : isFlag (chr '*') = false := by decide
  rw [htext]
  simp only [pieces?, takeWhile_stop f.flags_isFlag hflag, dropWhile_stop f.flags_isFlag hflag]
  rfl

end Field

/-- A format as it is documented: text, specifications and `%%`. -/
inductive Documented : List Byte → Prop
  | text {u : List Byte} : chr '%' ∉ u → Documented u
  | percent {u v : List Byte} : chr '%' ∉ u → Documented v →
      Documented (u ++ chr '%' :: chr '%' :: v)
  | spec {u v : List Byte} {m : Option Byte} {x : Byte} (f : Field) : chr '%' ∉ u →
      (∀ c, m = some c → isModifier c = true) → IsLetter x → x ≠ chr 'f' → Documented v →
      Documented (u ++ chr '%' :: (f.text ++ (m.toList ++ x :: v)))

theorem Complete.append {ok : Byte → Prop} {u t : List Byte} (hu : chr '%' ∉ u)
    (h : Complete ok t) : Complete ok (u ++ t) := by
  cases h with
  | text ht => exact .text (List.not_mem_append hu ht)
  | @spec u' v rest p hu' hp hok hrest =>
    rw [← List.append_assoc]
    exact .spec (List.not_mem_append hu hu') hp hok hrest

/-- The specifications of a documented format are complete. -/
theorem complete_of_documented {t : List Byte} (h : Documented t) : Complete (· ≠ chr 'f') t := by
  induction h with
  | text hu => exact .text hu
  | @percent u v hu _ ih =>
    have hp : pieces? (chr '%' :: v) = some (⟨[], .absent, .absent, none, chr '%'⟩, v) := rfl
    exact .spec hu hp (by decide) ih
  | @spec u v m x f hu hm hx hf _ ih =>
    by_cases hstar : f.width = .star
    · have hmodifier : chr '%' ∉ m.toList := by
        intro hmem
        exact absurd (hm _ (Option.mem_toList.mp hmem)) (by decide)
      have hprecision : chr '%' ∉ precisionText f.precision := by
        intro hmem
        have hnumeral := f.precision_isNumeral
        cases hn : f.precision with
        | none =>
          rw [hn] at hmem
          exact absurd hmem List.not_mem_nil
        | some n =>
          rw [hn] at hmem hnumeral
          rcases List.mem_cons.mp hmem with hmem | hmem
          · exact absurd hmem (by decide)
          · cases n with
            | absent => exact absurd hmem List.not_mem_nil
            | star => exact absurd (List.mem_singleton.mp hmem) (by decide)
            | decimal ds => exact absurd (hnumeral.2 _ hmem) (by decide)
      have hletter : chr '%' ≠ x := by
        rintro rfl
        exact absurd hx (by decide)
      have hconv : chr '*' ≠ chr 'f' := by decide
      refine .spec hu (f.pieces?_star hstar _) hconv ?_
      refine .append hprecision (.append hmodifier ?_)
      exact .append (u := [x]) (by simpa using hletter) ih
    · exact .spec hu (f.pieces?_text hstar hm hx v) hf ih

end FreeVMS.Rtl.Sprint
