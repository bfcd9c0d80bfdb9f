import FreeVMS.Lib.Layout
import Mathlib.Data.List.GetD
import Mathlib.Logic.Function.Basic
import Mathlib.Tactic.Ring

/-!
# The console

`libearly/amd64.c`: what the executive prints goes to the display, 25 lines of 80 characters, each with
the byte for its colour behind it, and with `CONFIG_COMPORT` to a serial line, too.  The cursor begins
in the last line and never leaves it: a line that is full makes the others go up.
-/

namespace FreeVMS.Early

open Layout

/-- `NUM_LINES` -/
def numLines : Nat := 25

/-- The bytes from `DISPLAY` on, and `__cursor`. -/
structure Vga where
  display : Nat → BitVec 8
  cursor : Nat

/-- `DISPLAY[__cursor++] = c; DISPLAY[__cursor++] = COLOR;` -/
def Vga.put (color : BitVec 8) (c : Int) (v : Vga) : Vga where
  display := Function.update (Function.update v.display v.cursor (BitVec.ofInt 8 c)) (v.cursor + 1) color
  cursor := v.cursor + 2

/-- The loop that puts blanks while `__cursor % m != 0`. -/
def Vga.blanks (color : BitVec 8) (m : Nat) : Nat → Vga → Option Vga
  | 0, _ => none
  | fuel + 1, v =>
      let v := v.put color 32
      if v.cursor % m ≠ 0 then v.blanks color m fuel else some v

/-- `160 / sizeof (L4_Word_t)` -/
def wordsPerLine : Nat := 160 / 8

/-- The word `i` of the display is moved up by a line. -/
def moveWord (display : Nat → BitVec 8) (i : Nat) : Nat → BitVec 8 := fun p =>
  if p / 8 = i - wordsPerLine then display (p + 8 * wordsPerLine) else display p

/-- The word `i` of the last line is cleared. -/
def clearWord (display : Nat → BitVec 8) (i : Nat) : Nat → BitVec 8 := fun p =>
  if p / 8 = wordsPerLine * (numLines - 1) + i then 0 else display p

def scroll (display : Nat → BitVec 8) : Nat → BitVec 8 :=
  (List.range wordsPerLine).foldl clearWord
    ((List.range' wordsPerLine (wordsPerLine * numLines - wordsPerLine)).foldl moveWord display)

/-- The `switch` of `__vga_putc`.  A loop over more blanks than a line has does not end. -/
def Vga.switch (color : BitVec 8) (c : Int) (v : Vga) : Option Vga :=
  if c = 13 then some v
  else if c = 10 then v.blanks color 160 80
  else if c = 9 then v.blanks color 16 80
  else some (v.put color c)

/-- Where the last line is full, all go up. -/
def Vga.up (v : Vga) : Vga :=
  if v.cursor = 160 * numLines then ⟨scroll v.display, v.cursor - 160⟩ else v

/-- `__vga_putc` -/
def vgaPutc (color : BitVec 8) (c : Int) (v : Vga) : Option Vga := (v.switch color c).map Vga.up

/-- The display, and what has been sent on the serial line. -/
structure Console where
  vga : Vga
  serial : List (BitVec 8)

/-- `COLOR`, with and without `CONFIG_COMPORT` -/
def colorOf (comport : Bool) : BitVec 8 := if comport then 15 else 7

/-- `outb(COMPORT, c)` -/
def Console.outb (c : Int) (s : Console) : Console :=
  { s with serial := s.serial ++ [BitVec.ofInt 8 c] }

def Console.putc (comport : Bool) (c : Int) (s : Console) : Option Console :=
  (vgaPutc (colorOf comport) c s.vga).map fun vga => { s with vga := vga }

/-- `__l4_putc`; with `CONFIG_COMPORT` it calls itself with a return after a newline. -/
def l4Putc (comport : Bool) (c : Int) (s : Console) : Option Console :=
  if comport then
    if c = 10 then (((s.outb c).outb 13).putc comport 13).bind fun s => s.putc comport c
    else (s.outb c).putc comport c
  else s.putc comport c

/-- `print_string`: the characters are signed. -/
def printString (comport : Bool) (text : List (BitVec 8)) (s : Console) : Option Console :=
  text.foldlM (fun s c => l4Putc comport c.toInt s) s

/-! ### Cells -/

/-- A character on the display and its colour. -/
def cell (display : Nat → BitVec 8) (row col : Nat) : BitVec 8 × BitVec 8 :=
  (display (160 * row + 2 * col), display (160 * row + 2 * col + 1))

/-- The display after the text `r` has been typed in the last line of the display `d`. -/
structure Shows (color : BitVec 8) (d : Nat → BitVec 8) (v : Vga) (r : Roll (BitVec 8)) : Prop where
  cursor : v.cursor = 160 * 24 + 2 * r.line.length
  above : ∀ row col, row < 24 → col < 80 → cell v.display row col =
    if row + r.lines.length < 24 then cell d (row + r.lines.length) col
    else ((r.lines.getD (row + r.lines.length - 24) []).getD col 0, color)
  line : ∀ col, col < r.line.length → cell v.display 24 col = (r.line.getD col 0, color)
  clear : ∀ col, r.line.length ≤ col → col < 80 → cell v.display 24 col =
    if r.lines.length = 0 then cell d 24 col else (0, 0)
  outside : ∀ p, 4000 ≤ p → v.display p = d p

/-- What a character does on the roll. -/
def strokeOf (c : Int) : Stroke (BitVec 8) :=
  if c = 13 then .stay else if c = 10 then .newline else if c = 9 then .tab else .type (BitVec.ofInt 8 c)

/-- Lines of 80 characters, with a stop at every eighth. -/
def type (c : Int) (r : Roll (BitVec 8)) : Roll (BitVec 8) := r.write 80 8 32 (strokeOf c)

def typed (text : List (BitVec 8)) : Roll (BitVec 8) :=
  text.foldl (fun r c => type c.toInt r) ⟨[], []⟩

variable {color : BitVec 8} {d display : Nat → BitVec 8} {v : Vga} {r : Roll (BitVec 8)} {c : Int}
  {row col : Nat}

theorem put_display : (v.put color c).display =
    Function.update (Function.update v.display v.cursor (BitVec.ofInt 8 c)) (v.cursor + 1) color :=
  rfl

theorem cell_put (hcursor : v.cursor = 160 * 24 + 2 * r.line.length) (hfit : r.line.length < 80)
    (hcol : col < 80) : cell (v.put color c).display row col =
      if row = 24 ∧ col = r.line.length then (BitVec.ofInt 8 c, color) else cell v.display row col := by
  have hplace : 160 * row + 2 * col = v.cursor ↔ row = 24 ∧ col = r.line.length := by omega
  have hodd : 160 * row + 2 * col + 1 ≠ v.cursor := by omega
  have heven : 160 * row + 2 * col ≠ v.cursor + 1 := by omega
  rw [cell, cell, put_display]
  split
  · rename_i hhere
    rw [hplace.mpr hhere, Function.update_self, Function.update_of_ne (Nat.lt_succ_self _).ne,
      Function.update_self]
  · rename_i hthere
    have hne : 160 * row + 2 * col ≠ v.cursor := mt hplace.mp hthere
    have hne' : 160 * row + 2 * col + 1 ≠ v.cursor + 1 := fun heq => hne (Nat.succ.inj heq)
    rw [Function.update_of_ne heven, Function.update_of_ne hne, Function.update_of_ne hne',
      Function.update_of_ne hodd]

/-- A character in a line that is not full. -/
theorem Shows.put (h : Shows color d v r) (hfit : r.line.length < 80) (c : Int) :
    Shows color d (v.put color c) { r with line := r.line ++ [BitVec.ofInt 8 c] } := by
  have hcell : ∀ row col, col < 80 → cell (v.put color c).display row col =
      if row = 24 ∧ col = r.line.length then (BitVec.ofInt 8 c, color) else cell v.display row col :=
    fun _ _ hcol => cell_put h.cursor hfit hcol
  constructor
  case cursor =>
    rw [Vga.put, h.cursor, List.length_append, List.length_singleton]
    rfl
  case above =>
    intro row col hrow hcol
    rw [hcell row col hcol, if_neg fun hhere => Nat.ne_of_lt hrow hhere.1]
    exact h.above row col hrow hcol
  case line =>
    intro col hcol
    rw [List.length_append, List.length_singleton] at hcol
    rw [hcell 24 col (by omega)]
    by_cases hlast : col = r.line.length
    · subst hlast
      rw [if_pos ⟨rfl, rfl⟩]
      simp
    · rw [if_neg fun hhere => hlast hhere.2, h.line col (by omega)]
      rw [List.getD_append _ _ _ _ (by omega)]
  case clear =>
    intro col hcol hlt
    rw [List.length_append, List.length_singleton] at hcol
    rw [hcell 24 col hlt, if_neg fun hhere => Nat.ne_of_gt hcol hhere.2]
    exact h.clear col (by omega) hlt
  case outside =>
    intro p hp
    have hcursor := h.cursor
    rw [put_display, Function.update_of_ne (by omega), Function.update_of_ne (by omega), h.outside p hp]

/-! ### The display goes up -/

theorem foldl_moveWord (n : Nat) (p : Nat) : (List.range' wordsPerLine n).foldl moveWord display p =
    if p / 8 < n then display (p + 8 * wordsPerLine) else display p := by
  induction n generalizing p with
  | zero => rfl
  | succ n ih =>
    rw [List.range'_concat, List.foldl_append, List.foldl_cons, List.foldl_nil, moveWord, ih, ih,
      Nat.one_mul, Nat.add_sub_cancel_left]
    have hw : wordsPerLine = 20 := rfl
    rw [hw]
    by_cases hlast : p / 8 = n
    · rw [if_pos hlast, if_neg (by omega), if_pos (by omega)]
    · rw [if_neg hlast]
      by_cases hlt : p / 8 < n
      · rw [if_pos hlt, if_pos (by omega)]
      · rw [if_neg hlt, if_neg (by omega)]

theorem foldl_clearWord (n : Nat) (p : Nat) : (List.range n).foldl clearWord display p =
    if 480 ≤ p / 8 ∧ p / 8 < 480 + n then 0 else display p := by
  induction n with
  | zero => rw [if_neg (by omega)]; rfl
  | succ n ih =>
    rw [List.range_succ, List.foldl_append, List.foldl_cons, List.foldl_nil, clearWord, ih]
    have hw : wordsPerLine * (numLines - 1) = 480 := rfl
    rw [hw]
    by_cases hlast : p / 8 = 480 + n
    · rw [if_pos hlast, if_pos (by omega)]
    · rw [if_neg hlast]
      by_cases hin : 480 ≤ p / 8 ∧ p / 8 < 480 + n
      · rw [if_pos hin, if_pos (by omega)]
      · rw [if_neg hin, if_neg (by omega)]

theorem scroll_eq (p : Nat) : scroll display p =
    if p < 3840 then display (p + 160) else if p < 4000 then 0 else display p := by
  have hw : wordsPerLine = 20 := rfl
  have hn : wordsPerLine * numLines - wordsPerLine = 480 := rfl
  rw [scroll, foldl_clearWord, foldl_moveWord, hn, hw]
  by_cases hlow : p < 3840
  · rw [if_pos hlow, if_neg (by omega), if_pos (by omega)]
  rw [if_neg hlow]
  by_cases hlast : p < 4000
  · rw [if_pos hlast, if_pos (by omega)]
  · rw [if_neg hlast, if_neg (by omega)]
    exact if_neg (by omega)

theorem cell_scroll (hrow : row < 25) (hcol : col < 80) : cell (scroll display) row col =
    if row < 24 then cell display (row + 1) col else (0, 0) := by
  rw [cell, scroll_eq, scroll_eq]
  by_cases hup : row < 24
  · rw [if_pos hup, if_pos (by omega), if_pos (by omega), cell]
    have hnext : 160 * (row + 1) + 2 * col = 160 * row + 2 * col + 160 := by omega
    rw [hnext]
  · rw [if_neg hup, if_neg (by omega), if_pos (by omega), if_neg (by omega), if_pos (by omega)]

/-- A full line is finished. -/
theorem Shows.scroll (h : Shows color d v r) (hfull : r.line.length = 80) :
    Shows color d ⟨Early.scroll v.display, v.cursor - 160⟩ ⟨r.lines ++ [r.line], []⟩ := by
  have hlength : (r.lines ++ [r.line]).length = r.lines.length + 1 := by simp
  constructor
  case cursor =>
    rw [h.cursor, hfull]
    rfl
  case above =>
    intro row col hrow hcol
    rw [cell_scroll (Nat.lt_succ_of_lt hrow) hcol, if_pos hrow, hlength]
    by_cases hlast : row + 1 = 24
    · obtain rfl : row = 23 := Nat.succ.inj hlast
      have hindex : 23 + (r.lines.length + 1) - 24 = r.lines.length := by omega
      rw [h.line col (by omega), if_neg (by omega), hindex]
      simp
    · rw [h.above (row + 1) col (by omega) hcol]
      have hsum : row + 1 + r.lines.length = row + (r.lines.length + 1) := by omega
      rw [hsum]
      by_cases hold : row + (r.lines.length + 1) < 24
      · rw [if_pos hold, if_pos hold]
      · rw [if_neg hold, if_neg hold, List.getD_append _ _ _ _ (by omega)]
  case line => exact fun col hcol => absurd hcol (Nat.not_lt_zero _)
  case clear =>
    intro col _ hlt
    rw [cell_scroll (by decide) hlt, if_neg (by decide), hlength, if_neg (Nat.succ_ne_zero _)]
  case outside =>
    intro p hp
    have hscroll : Early.scroll v.display p = d p := by
      rw [scroll_eq, if_neg (by omega), if_neg (by omega), h.outside p hp]
    exact hscroll

/-! ### One character -/

/-- The blanks up to the next stop. -/
theorem Shows.blanks {m : Nat} (hm : 0 < m) (hdvd : m ∣ 80) : ∀ (fuel : Nat) {v : Vga}
    {r : Roll (BitVec 8)}, Shows color d v r → r.line.length < 80 → m - r.line.length % m ≤ fuel →
    ∃ v', v.blanks color (2 * m) fuel = some v' ∧
      Shows color d v' { r with line := fill m 32 r.line } := by
  obtain ⟨n, hn⟩ := hdvd
  intro fuel
  induction fuel with
  | zero =>
    intro v r _ _ hfuel
    have hlt := Nat.mod_lt r.line.length hm
    omega
  | succ fuel ih =>
    intro v r h hfit hfuel
    have hput := h.put hfit 32
    have hcursor : (v.put color 32).cursor = 2 * m * (24 * n) + 2 * (r.line.length + 1) := by
      have heq := hput.cursor
      rw [List.length_append, List.length_singleton] at heq
      rw [heq, show 2 * m * (24 * n) = 48 * (m * n) by ring, ← hn]
    have hmod : (v.put color 32).cursor % (2 * m) = 2 * ((r.line.length + 1) % m) := by
      rw [hcursor, Nat.mul_add_mod, Nat.mul_mod_mul_left]
    have hlt := Nat.mod_lt r.line.length hm
    rw [Vga.blanks]
    by_cases hstop : (r.line.length + 1) % m = 0
    · -- the next stop is behind this blank
      rw [if_neg (by rw [hmod, hstop]; decide)]
      have hone : m - r.line.length % m = 1 := by
        rw [← Nat.mod_add_mod] at hstop
        have hle : m ≤ r.line.length % m + 1 := Nat.le_of_dvd (Nat.succ_pos _) (Nat.dvd_of_mod_eq_zero hstop)
        omega
      refine ⟨_, rfl, ?_⟩
      rw [fill, hone]
      exact hput
    · rw [if_pos (by rw [hmod]; omega)]
      have hsucc : (r.line.length + 1) % m = r.line.length % m + 1 := by
        have hne : r.line.length % m + 1 ≠ m := by
          intro heq
          rw [← Nat.mod_add_mod, heq, Nat.mod_self] at hstop
          exact hstop rfl
        rw [← Nat.mod_add_mod, Nat.mod_eq_of_lt (by omega)]
      have hmore : r.line.length + 1 < 80 := by
        refine Nat.lt_of_le_of_ne hfit fun heq => hstop ?_
        rw [heq, hn, Nat.mul_mod_right]
      obtain ⟨v', hrun, hshows⟩ := ih hput (by simpa using hmore) (by
        rw [List.length_append, List.length_singleton, hsucc]
        omega)
      refine ⟨v', hrun, ?_⟩
      have hfill : fill m 32 (r.line ++ [BitVec.ofInt 8 32]) = fill m 32 r.line := by
        rw [fill, fill, List.length_append, List.length_singleton, hsucc, List.append_assoc]
        have hsplit : m - r.line.length % m = m - (r.line.length % m + 1) + 1 := by omega
        rw [hsplit, List.replicate_succ]
        rfl
      rw [hfill] at hshows
      exact hshows

theorem switch_spec (h : Shows color d v r) (hwide : Wide 80 r) (c : Int) :
    ∃ v', v.switch color c = some v' ∧
      Shows color d v' { r with line := strike 80 8 32 (strokeOf c) r.line } := by
  rw [Vga.switch, strokeOf]
  by_cases hreturn : c = 13
  · rw [if_pos hreturn, if_pos hreturn]
    exact ⟨v, rfl, h⟩
  rw [if_neg hreturn, if_neg hreturn]
  by_cases hnewline : c = 10
  · rw [if_pos hnewline, if_pos hnewline]
    exact h.blanks (m := 80) (by decide) (dvd_refl _) 80 hwide.line (by omega)
  rw [if_neg hnewline, if_neg hnewline]
  by_cases htab : c = 9
  · rw [if_pos htab, if_pos htab]
    exact h.blanks (m := 8) (by decide) (by decide) 80 hwide.line (by omega)
  · rw [if_neg htab, if_neg htab]
    exact ⟨_, rfl, h.put hwide.line c⟩

/-- **One character.** -/
theorem vgaPutc_spec (h : Shows color d v r) (hwide : Wide 80 r) (c : Int) :
    ∃ v', vgaPutc color c v = some v' ∧ Shows color d v' (type c r) := by
  obtain ⟨v', hrun, hshows⟩ := switch_spec h hwide c
  have hcursor := hshows.cursor
  refine ⟨v'.up, by rw [vgaPutc, hrun]; rfl, ?_⟩
  rw [Vga.up, type, Roll.write, Roll.wrap]
  by_cases hfull : (strike 80 8 32 (strokeOf c) r.line).length = 80
  · have hend : v'.cursor = 160 * numLines := by
      rw [hcursor, hfull]
      rfl
    rw [if_pos hfull, if_pos hend]
    exact hshows.scroll hfull
  · have hend : v'.cursor ≠ 160 * numLines := by
      have hend : 160 * numLines = 160 * 24 + 2 * 80 := rfl
      rw [hcursor, hend]
      simp only
      omega
    rw [if_neg hfull, if_neg hend]
    exact hshows

theorem wide_type (h : Wide 80 r) (c : Int) : Wide 80 (type c r) :=
  h.write (by decide) (by decide) (strokeOf c)

/-! ### A text -/

/-- What goes to the serial line. -/
def sent (comport : Bool) (text : List (BitVec 8)) : List (BitVec 8) :=
  if comport then text.flatMap fun c => if c = 10 then [10, 13] else [c] else []

theorem putc_spec {comport : Bool} {s : Console} (h : Shows (colorOf comport) d s.vga r)
    (hwide : Wide 80 r) (c : Int) : ∃ s', s.putc comport c = some s' ∧ s'.serial = s.serial ∧
      Shows (colorOf comport) d s'.vga (type c r) := by
  obtain ⟨v', hrun, hshows⟩ := vgaPutc_spec h hwide c
  exact ⟨{ s with vga := v' }, by rw [Console.putc, hrun]; rfl, rfl, hshows⟩

/-- **One character, on the display and on the serial line.** -/
theorem l4Putc_spec {comport : Bool} {s : Console} (h : Shows (colorOf comport) d s.vga r)
    (hwide : Wide 80 r) (c : BitVec 8) : ∃ s', l4Putc comport c.toInt s = some s' ∧
      s'.serial = s.serial ++ sent comport [c] ∧ Shows (colorOf comport) d s'.vga (type c.toInt r) := by
  cases comport with
  | false =>
    obtain ⟨s', hrun, hserial, hshows⟩ := putc_spec h hwide c.toInt
    exact ⟨s', hrun, by rw [hserial]; exact (List.append_nil _).symm, hshows⟩
  | true =>
    have hbyte : BitVec.ofInt 8 c.toInt = c := BitVec.ofInt_toInt
    have hten : c.toInt = 10 ↔ c = 10 := by
      rw [show (10 : Int) = (10 : BitVec 8).toInt from rfl, BitVec.toInt_inj]
    rw [l4Putc, if_pos rfl]
    by_cases hnewline : c.toInt = 10
    · -- the return changes nothing on the display
      have hreturn : Shows (colorOf true) d ((s.outb c.toInt).outb 13).vga r := h
      obtain ⟨s₁, hrun₁, hserial₁, hshows₁⟩ := putc_spec hreturn hwide 13
      have hsame : type 13 r = r := by
        rw [type, strokeOf, if_pos rfl]
        exact if_neg (Nat.ne_of_lt hwide.line)
      rw [hsame] at hshows₁
      obtain ⟨s₂, hrun₂, hserial₂, hshows₂⟩ := putc_spec hshows₁ hwide c.toInt
      rw [if_pos hnewline, hrun₁]
      refine ⟨s₂, hrun₂, ?_, hshows₂⟩
      rw [hserial₂, hserial₁, Console.outb, Console.outb, hbyte, hten.mp hnewline, List.append_assoc]
      rfl
    · have hout : Shows (colorOf true) d (s.outb c.toInt).vga r := h
      obtain ⟨s', hrun, hserial, hshows⟩ := putc_spec hout hwide c.toInt
      rw [if_neg hnewline]
      refine ⟨s', hrun, ?_, hshows⟩
      have hother : c ≠ 10 := mt hten.mpr hnewline
      rw [hserial, Console.outb, hbyte, sent, if_pos rfl, List.flatMap_singleton, if_neg hother]

/-- The text on both. -/
theorem print_shows (comport : Bool) (d : Nat → BitVec 8) (text : List (BitVec 8)) :
    ∃ s, printString comport text ⟨⟨d, 160 * (numLines - 1)⟩, []⟩ = some s ∧
      Wide 80 (typed text) ∧ Shows (colorOf comport) d s.vga (typed text) ∧
      s.serial = sent comport text := by
  have hrun : ∀ (text : List (BitVec 8)) (s : Console) (r : Roll (BitVec 8)),
      Wide 80 r → Shows (colorOf comport) d s.vga r →
      ∃ s', printString comport text s = some s' ∧
        Wide 80 (text.foldl (fun r c => type c.toInt r) r) ∧
        Shows (colorOf comport) d s'.vga (text.foldl (fun r c => type c.toInt r) r) ∧
        s'.serial = s.serial ++ sent comport text := by
    intro text
    induction text with
    | nil =>
      intro s r hwide h
      refine ⟨s, rfl, hwide, h, ?_⟩
      cases comport <;> exact (List.append_nil _).symm
    | cons c text ih =>
      intro s r hwide h
      obtain ⟨s₁, hputc, hserial, hshows⟩ := l4Putc_spec h hwide c
      obtain ⟨s', hrest, hwide', hshows', hserial'⟩ := ih s₁ _ (wide_type hwide c.toInt) hshows
      refine ⟨s', ?_, hwide', hshows', ?_⟩
      · rw [printString, List.foldlM_cons, hputc]
        exact hrest
      · rw [hserial', hserial, List.append_assoc]
        cases comport <;> simp [sent]
  have hstart : Shows (colorOf comport) d ⟨d, 160 * (numLines - 1)⟩ ⟨[], []⟩ := by
    constructor
    case cursor => rfl
    case above => exact fun row col hrow _ => (if_pos hrow).symm
    case line => exact fun col hcol => absurd hcol (Nat.not_lt_zero _)
    case clear => exact fun col _ _ => (if_pos rfl).symm
    case outside => exact fun p _ => rfl
  exact hrun text ⟨⟨d, 160 * (numLines - 1)⟩, []⟩ ⟨[], []⟩ ⟨fun l hl => absurd hl List.not_mem_nil, by decide⟩ hstart

/-- **The console.**  Whatever is on the display: after a text, the cursor is in the last line, behind
    what has been typed there; above it are the lines before that one, and above these what was on the
    display; nothing else is written.  The serial line has the text, with a return behind each newline. -/
theorem console_shows (comport : Bool) (d : Nat → BitVec 8) (text : List (BitVec 8)) :
    ∃ s, printString comport text ⟨⟨d, 160 * (numLines - 1)⟩, []⟩ = some s ∧
      Wide 80 (typed text) ∧ Shows (colorOf comport) d s.vga (typed text) ∧
      s.serial = sent comport text :=
  print_shows comport d text

example : typed [104, 105, 13, 9, 33] = ⟨[], [104, 105, 32, 32, 32, 32, 32, 32, 33]⟩ := by decide

/-! ### Lines -/

/-- A character that is printed as it is. -/
def Plain (c : BitVec 8) : Prop := c ≠ 9 ∧ c ≠ 10 ∧ c ≠ 13

instance : DecidablePred Plain := fun c => inferInstanceAs (Decidable (c ≠ 9 ∧ c ≠ 10 ∧ c ≠ 13))

/-- A line, with blanks up to its end. -/
def lineOf (l : List (BitVec 8)) : List (BitVec 8) := l ++ List.replicate (80 - l.length) 32

theorem strokeOf_plain {c : BitVec 8} (h : Plain c) : strokeOf c.toInt = .type c := by
  have hne : ∀ x : BitVec 8, c ≠ x → c.toInt ≠ x.toInt := fun x hx heq => hx (BitVec.toInt_inj.mp heq)
  have hreturn : c.toInt ≠ 13 := hne 13 h.2.2
  have hnewline : c.toInt ≠ 10 := hne 10 h.2.1
  have htab : c.toInt ≠ 9 := hne 9 h.1
  rw [strokeOf, if_neg hreturn, if_neg hnewline, if_neg htab, BitVec.ofInt_toInt]

/-- Short lines stand one below the other. -/
theorem typed_lines {text : List (BitVec 8)} {ls : List (List (BitVec 8))}
    (hshort : ∀ l ∈ ls, l.length < 80) (hplain : ∀ l ∈ ls, ∀ c ∈ l, Plain c)
    (hline : (typed text).line = []) :
    typed (text ++ ls.flatMap fun l => l ++ [10]) = ⟨(typed text).lines ++ ls.map lineOf, []⟩ := by
  have hfold : ∀ (text : List (BitVec 8)) (r : Roll (BitVec 8)),
      text.foldl (fun r c => type c.toInt r) r =
        (text.map fun c => strokeOf c.toInt).foldl (fun r s => Roll.write 80 8 32 s r) r := by
    intro text r
    rw [List.foldl_map]
    rfl
  have hmap : (ls.flatMap fun l => l ++ [10]).map (fun c : BitVec 8 => strokeOf c.toInt) =
      ls.flatMap fun l => l.map Stroke.type ++ [Stroke.newline] := by
    rw [List.map_flatMap]
    refine List.flatMap_congr fun l hl => ?_
    rw [List.map_append]
    exact congrArg (· ++ _) (List.map_congr_left fun c hc => strokeOf_plain (hplain l hl c hc))
  have happend : typed (text ++ ls.flatMap fun l => l ++ [10]) =
      (ls.flatMap fun l => l ++ [10]).foldl (fun r c => type c.toInt r) (typed text) :=
    List.foldl_append
  rw [happend, hfold, hmap, foldl_lines ls hshort hline]
  rfl

end FreeVMS.Early
