import FreeVMS.Rtl.NodespecQuotes

/-!
# When a node specification is right

The whole of `lib$build_nodespec`. It tests the length of the primary name where the length of the
specification matters, and takes what it truncates from there too, with no mark doubled.
-/

namespace FreeVMS.Rtl.Str

open Run (Ends)
open Lib.Occurrence
open Lib.Doubling

variable {place : Store → Nat → Nat} {static : Nat → Prop} {readable : Nat → Bool} {σ σ' : Store}
  {quoteText doubleQuoteText : Nat} {primary nodespec : Descriptor} {acs secondary : Argument}
  {s t a b u : List Byte} {p q : Nat} {own : List Nat} {strings : List (Descriptor × List Byte)}
  {out : Outcome}

/-- An argument that stands for the text `u` if it is there. -/
structure Given (static : Nat → Prop) (σ : Store) (own : List Nat) (argument : Argument)
    (u : List Byte) : Prop where
  absent : argument.address = 0 → u = []
  present : argument.address ≠ 0 → ∃ p, Source static σ own argument.descriptor p u

/-- What is appended of it: the test looks at the low half of the address. -/
def seen (argument : Argument) (u : List Byte) : List Byte :=
  if argument.address.setWidth 32 ≠ (0 : BitVec 32) then u else []

theorem seen_cases (argument : Argument) (u : List Byte) : seen argument u = u ∨ seen argument u = [] := by
  unfold seen
  split
  · exact Or.inl rfl
  · exact Or.inr rfl

/-- `nodespec` is a dynamic string, and the arguments stand for other strings. -/
structure NodespecWorld (place : Store → Nat → Nat) (static : Nat → Prop) (readable : Nat → Bool)
    (σ : Store) (quoteText doubleQuoteText : Nat) (primary nodespec : Descriptor)
    (acs secondary : Argument) (p : Nat) (s a b : List Byte) : Prop where
  allocates : Allocates place static
  space : ∀ σ n, 0 < n → place σ n ≠ 0
  tidy : Tidy static σ
  heap : ∀ i, ¬ static i → readable i = true
  destination : ∃ t, Dynamic σ nodespec t
  quote : Literal static σ [nodespec.aPointer] quoteText [quotationMark]
  doubleQuote : Literal static σ [nodespec.aPointer] doubleQuoteText [quotationMark, quotationMark]
  primary : Source static σ [nodespec.aPointer] primary p s
  given : p ≠ 0
  acs : Given static σ [nodespec.aPointer] acs a
  secondary : Given static σ [nodespec.aPointer] secondary b

/-- The byte in front of the buffer that `nodespec` gets for a name of `n` bytes may be examined, and
it is no quotation mark. -/
def FrontClear (place : Store → Nat → Nat) (readable : Nat → Bool) (nodespec : Descriptor) (n : Nat)
    (σ : Store) : Prop :=
  let σ := withText place [quotationMark, quotationMark] (withText place [quotationMark] σ)
  ∃ y, look σ.memory readable ((copyBuffer place nodespec (BitVec.ofNat 16 n) σ : Int) - 1) = some y ∧
    y ≠ quotationMark

/-! ## The steps -/

theorem look_in_front {m m' : Memory} (h : ∀ i, i < p → m' i = m i) :
    look m' readable ((p : Int) - 1) = look m readable ((p : Int) - 1) := by
  unfold look
  split
  · rw [h _ (by omega)]
  · rfl

/-- The strings that the search and the replacements work on are there. -/
theorem prepared (hw : NodespecWorld place static readable σ quoteText doubleQuoteText primary nodespec
    acs secondary p s a b) :
    ∃ quote doubleQuote copy, strMallocSd place quoteText 1 σ = .ok quote ∧
      strMallocSd place doubleQuoteText 2 quote.store = .ok doubleQuote ∧
      strCopyDx place nodespec primary doubleQuote.store = .ok copy ∧
      Strings static σ [nodespec.aPointer] copy.store [(copy.destination, s),
        (doubleQuote.destination, [quotationMark, quotationMark]),
        (quote.destination, [quotationMark])] ∧
      (FrontClear place readable nodespec s.length σ ↔
        ∃ y, look copy.store.memory readable ((copy.destination.aPointer : Int) - 1) = some y ∧
          y ≠ quotationMark) := by
  obtain ⟨old, hd⟩ := hw.destination
  have h0 := (Strings.start hw.tidy hd).null
  -- the two marks
  have hquote := strMallocSd_eq hw.allocates hw.quote (List.cons_ne_nil _ _)
    (hw.space σ 1 Nat.one_pos)
  obtain ⟨quote, hcall, -, hleaves⟩ := (strMallocSd_dynamic hw.allocates h0.tidy
    (h0.outside hw.quote)).returns hw.space
  obtain rfl := Except.ok.inj (hquote.symm.trans hcall)
  have h1 := (h0.call hleaves).null
  have hdouble := strMallocSd_eq hw.allocates (h1.outside hw.doubleQuote) (List.cons_ne_nil _ _)
    (hw.space _ 2 Nat.two_pos)
  obtain ⟨doubleQuote, hcall', -, hleaves'⟩ := (strMallocSd_dynamic hw.allocates h1.tidy
    (h1.outside hw.doubleQuote)).returns hw.space
  obtain rfl := Except.ok.inj (hdouble.symm.trans hcall')
  -- the name
  have h2 := (h1.call hleaves').perm (@List.perm_middle _ (nodespec, old) [_, _] [])
  have hname := h2.outside hw.primary
  obtain ⟨copy, hcopy, -, hcopied⟩ := (strCopyDx_dynamic hw.allocates h2.tidy h2.head
    hname).returns hw.space
  have hbuffered := hcopy
  rw [strCopyDx, hname.analyzed, ok_bind] at hbuffered
  obtain ⟨-, -, haddress, hmemory⟩ := strCopyR_buffered hd.dynamic hbuffered
  have hlook := @look_in_front readable _ _ _ hmemory
  refine ⟨_, _, copy, hcall, hcall', hcopy, h2.call hcopied, ?_⟩
  rw [show copy.destination.aPointer = _ from haddress, hlook]
  exact Iff.rfl

theorem appendGiven_dynamic (ha : Allocates place static) {argument : Argument}
    (hgiven : Given static σ own argument u)
    (h : Strings static σ own out.store ((out.destination, t) :: strings)) :
    Ends (OutOfMemory place) (fun out' => Strings static σ own out'.store
        ((out'.destination, (t ++ seen argument u).take 65535) :: strings))
      (appendGiven place argument out) := by
  unfold appendGiven seen
  split
  · next hseen =>
    have hpresent : argument.address ≠ 0 := by
      intro hzero
      rw [hzero] at hseen
      exact hseen rfl
    obtain ⟨p, hs⟩ := hgiven.present hpresent
    exact Ends.mono (strAppend_dynamic ha h.tidy h.head (h.outside hs)) fun out' hout =>
      h.call hout.2
  · have hlt := h.head.lt
    rw [List.append_nil, List.take_of_length_le (by omega)]
    exact .ok h

theorem truncateName_dynamic (ha : Allocates place static)
    (hs : Source static σ own primary p s)
    (h : Strings static σ own out.store ((out.destination, t) :: strings)) :
    Ends (OutOfMemory place) (fun out' =>
        out'.status = (if 1024 < s.length then libStrtru else normal) ∧
        Strings static σ own out'.store
          ((out'.destination, if 1024 < s.length then s.take 1024 else t) :: strings))
      (truncateName place primary out) := by
  have hname := h.outside hs
  have hcheck : 1024 < BitVec.ofNat 16 s.length ↔ 1024 < s.length := by
    rw [BitVec.lt_def, hname.toNat_length]
    rfl
  simp only [truncateName, hname.analyzed, ok_bind, hcheck]
  split
  · have hleft := @strLeft_leaves place static out.store out.destination primary s p
      ⟨ha, h.tidy, ⟨t, h.head⟩, hname⟩ 1024 (by decide)
    apply Ends.bind hleft
    rintro out' ⟨htidy, hdynamic, hframe⟩
    exact .ok ⟨rfl, h.call ⟨htidy, hdynamic, hframe⟩⟩
  · exact .ok ⟨rfl, h⟩

theorem setLength_eq (hd : Dynamic out.store out.destination t) (nodespecLength : Bool) :
    setLength nodespecLength out =
      .ok (if nodespecLength = true then some (BitVec.ofNat 16 t.length) else none) := by
  cases nodespecLength with
  | false => rfl
  | true => simp only [setLength, if_true, hd.analyzed, ok_bind, hd.wLength_eq, pure, Except.pure]

/-- What the call leaves in `nodespec` when the doubling leaves `t`. -/
def built (s t a b : List Byte) : List Byte :=
  if 1024 < s.length then s.take 1024 else (t ++ a ++ b).take 65535

/-- What a call leaves. -/
structure Builds (s final : List Byte) (nodespecLength : Bool) (result : Nodespec) : Prop where
  status : result.status = if 1024 < s.length then libStrtru else normal
  dynamic : Dynamic result.store result.nodespec final
  length : result.nodespecLength =
    if nodespecLength = true then some (BitVec.ofNat 16 final.length) else none

section call

variable (hw : NodespecWorld place static readable σ quoteText doubleQuoteText primary nodespec acs
  secondary p s a b)
include hw

/-- A mark in front of the buffer, or none in the name, and the search reads where there is
nothing. -/
theorem libBuildNodespec_lost (nodespecLength : Bool)
    (hlost : quotationMark ∉ s ∨ ¬ FrontClear place readable nodespec s.length σ) :
    libBuildNodespec place readable quoteText doubleQuoteText primary nodespec acs secondary
      nodespecLength σ = .ok none := by
  obtain ⟨quote, doubleQuote, copy, hquote, hdouble, hcopy, h, hclear⟩ := prepared hw
  have hlost' := duplicateQuotes_lost hw.heap h place (hlost.imp id fun hfront y hlook => by
    by_contra hy
    exact hfront (hclear.mpr ⟨y, hlook, hy⟩))
  simp only [libBuildNodespec, hw.primary.analyzed, ok_bind, if_neg hw.given, hquote, hdouble, hcopy,
    hlost']
  rfl

theorem libBuildNodespec_leaves (nodespecLength : Bool) (hmem : quotationMark ∈ s)
    (hfront : FrontClear place readable nodespec s.length σ) :
    ∃ result t, libBuildNodespec place readable quoteText doubleQuoteText primary nodespec acs
        secondary nodespecLength σ = .ok (some result) ∧ Duplicated s t ∧
      Builds s (built s t (seen acs a) (seen secondary b)) nodespecLength result := by
  obtain ⟨quote, doubleQuote, copy, hquote, hdouble, hcopy, h, hclear⟩ := prepared hw
  obtain ⟨y, hlook, hy⟩ := hclear.mp hfront
  have hends : Ends (OutOfMemory place) (fun o => ∃ result t, o = some result ∧ Duplicated s t ∧
      Builds s (built s t (seen acs a) (seen secondary b)) nodespecLength result)
      (libBuildNodespec place readable quoteText doubleQuoteText primary nodespec acs secondary
        nodespecLength σ) := by
    simp only [libBuildNodespec, hw.primary.analyzed, ok_bind, if_neg hw.given, hquote, hdouble, hcopy]
    apply Ends.bind (duplicateQuotes_leaves hw.heap h hw.allocates hmem hlook hy)
    rintro o ⟨out, t, rfl, hduplicated, h1⟩
    apply Ends.bind (appendGiven_dynamic hw.allocates hw.acs h1)
    intro out₁ h2
    apply Ends.bind (appendGiven_dynamic hw.allocates hw.secondary h2)
    intro out₂ h3
    rw [take_append_take] at h3
    apply Ends.bind (truncateName_dynamic hw.allocates hw.primary h3)
    rintro out₃ ⟨hstatus, h4⟩
    rw [setLength_eq h4.head, ok_bind]
    -- the two marks are freed
    have h4' := h4.perm (@List.perm_middle _ _ [_, _] [])
    obtain ⟨freed, hfree, -, hfreed⟩ := strFree1Dx_dynamic h4'.tidy h4'.head
    have h5 := (h4'.call hfreed).perm (@List.perm_middle _ _ [_, _] [])
    obtain ⟨freed', hfree', -, hfreed'⟩ := strFree1Dx_dynamic h5.tidy h5.head
    have h6 := h5.call hfreed'
    rw [hfree, ok_bind, hfree', ok_bind]
    exact .ok ⟨_, t, rfl, hduplicated, hstatus, h6.dynamic out₃.destination _ (by simp [built]), rfl⟩
  obtain ⟨o, hcall, result, t, rfl, hduplicated, hbuilds⟩ := returns_of_space hends hw.space
  exact ⟨result, t, hcall, hduplicated, hbuilds⟩

end call

/-! ## When the specification is right -/

/-- The call leaves `full` in `nodespec`, cut to 1024 bytes, says so exactly when there was more, and
stores the length if it is asked for. -/
def NodespecRight (full : List Byte) (nodespecLength : Bool) (call : Except Fault (Option Nodespec)) :
    Prop :=
  ∃ result, call = .ok (some result) ∧ Dynamic result.store result.nodespec (full.take 1024) ∧
    (result.status = libStrtru ↔ 1024 < full.length) ∧
    (nodespecLength = true →
      result.nodespecLength = some (BitVec.ofNat 16 (full.take 1024).length))

/-- What the code makes of the marks and the arguments is right. For a name of up to 1024 bytes: the
specification is not longer either, there are two marks, and no argument is overlooked. For a longer
name: there is a mark, and among the first 1024 bytes the marks are at the end. -/
def MarksRight (s a b a' b' : List Byte) : Prop :=
  if 1024 < s.length then
    quotationMark ∈ s ∧
      ∃ e k, quotationMark ∉ e ∧ s.take 1024 = e ++ List.replicate k quotationMark
  else
    s.length + s.count quotationMark + a.length + b.length ≤ 1024 ∧
      ((s.count quotationMark = 2 ∧ a' = a ∧ b' = b) ∨
        (s.count quotationMark = 1 ∧ s.getLast? = some quotationMark ∧
          quotationMark :: (a' ++ b') = a ++ b))

theorem MarksRight.mem {a' b' : List Byte} (h : MarksRight s a b a' b') : quotationMark ∈ s := by
  unfold MarksRight at h
  split at h
  · exact h.1
  · rcases h.2 with ⟨hcount, -⟩ | ⟨hcount, -⟩
    · exact List.count_pos_iff.mp (by omega)
    · exact List.count_pos_iff.mp (by omega)

theorem length_full (s a b : List Byte) :
    (doubled quotationMark s ++ a ++ b).length =
      s.length + s.count quotationMark + a.length + b.length := by
  rw [List.length_append, List.length_append, length_doubled]

theorem built_right_iff (h : Duplicated s t) (hmem : quotationMark ∈ s) {a' b' : List Byte}
    (ha : a' = a ∨ a' = []) (hb : b' = b ∨ b' = []) :
    built s t a' b' = (doubled quotationMark s ++ a ++ b).take 1024 ∧
        (1024 < s.length ↔ 1024 < (doubled quotationMark s ++ a ++ b).length) ↔
      MarksRight s a b a' b' := by
  rw [length_full, built, MarksRight]
  by_cases hlong : 1024 < s.length
  · have htake : (doubled quotationMark s ++ a ++ b).take 1024 = (doubled quotationMark s).take 1024 := by
      rw [List.append_assoc, List.take_append_of_le_length (by rw [length_doubled]; omega)]
    rw [if_pos hlong, if_pos hlong, htake, ← take_doubled_iff (Nat.le_of_lt hlong), eq_comm]
    constructor
    · exact fun h => ⟨hmem, h.1⟩
    · exact fun h => ⟨h.2, iff_of_true hlong (by omega)⟩
  · rw [if_neg hlong, if_neg hlong, ← h.eq_iff (by omega) ha hb]
    have hwhole : s.length + s.count quotationMark + a.length + b.length ≤ 1024 →
        (doubled quotationMark s ++ a ++ b).take 1024 = doubled quotationMark s ++ a ++ b :=
      fun hshort => List.take_of_length_le (by rw [length_full]; exact hshort)
    constructor
    · rintro ⟨heq, hlength⟩
      have hshort : s.length + s.count quotationMark + a.length + b.length ≤ 1024 := by omega
      refine ⟨hshort, ?_⟩
      rw [hwhole hshort] at heq
      -- what is not longer than 1024 bytes has not been cut
      have hcut := congrArg List.length heq
      rw [List.length_take, length_full] at hcut
      rwa [List.take_of_length_le (by omega)] at heq
    · rintro ⟨hshort, heq⟩
      have hlength := congrArg List.length heq
      rw [length_full] at hlength
      refine ⟨?_, by omega⟩
      rw [hwhole hshort, List.take_of_length_le (by omega), heq]

/-- The call is right exactly when what it builds is. -/
theorem Builds.right_iff {full final : List Byte} {nodespecLength : Bool} {result : Nodespec}
    (h : Builds s final nodespecLength result) :
    NodespecRight full nodespecLength (.ok (some result)) ↔
      final = full.take 1024 ∧ (1024 < s.length ↔ 1024 < full.length) := by
  have hstatus : result.status = libStrtru ↔ 1024 < s.length := by
    rw [h.status]
    split
    · next hlong => exact iff_of_true rfl hlong
    · next hshort => exact iff_of_false (by decide) hshort
  constructor
  · rintro ⟨result', heq, hdynamic, hstatus', -⟩
    cases heq
    exact ⟨h.dynamic.unique hdynamic, hstatus.symm.trans hstatus'⟩
  · rintro ⟨rfl, hlength⟩
    refine ⟨result, rfl, h.dynamic, hstatus.trans hlength, fun hwanted => ?_⟩
    rw [h.length, if_pos hwanted]

/-- The condition: there is no mark in front of the buffer, and the marks of the name are right. -/
def NodespecCondition (place : Store → Nat → Nat) (readable : Nat → Bool) (nodespec : Descriptor)
    (σ : Store) (acs secondary : Argument) (s a b : List Byte) : Prop :=
  FrontClear place readable nodespec s.length σ ∧
    MarksRight s a b (seen acs a) (seen secondary b)

section right

variable (hw : NodespecWorld place static readable σ quoteText doubleQuoteText primary nodespec acs
  secondary p s a b)
include hw

theorem condition_of_nodespecRight {nodespecLength : Bool}
    (h : NodespecRight (doubled quotationMark s ++ a ++ b) nodespecLength
      (libBuildNodespec place readable quoteText doubleQuoteText primary nodespec acs secondary
        nodespecLength σ)) :
    NodespecCondition place readable nodespec σ acs secondary s a b := by
  by_cases hlost : quotationMark ∉ s ∨ ¬ FrontClear place readable nodespec s.length σ
  · obtain ⟨result, hcall, -⟩ := h
    rw [libBuildNodespec_lost hw nodespecLength hlost] at hcall
    exact nomatch hcall
  · push Not at hlost
    obtain ⟨result, t, hcall, hduplicated, hbuilds⟩ :=
      libBuildNodespec_leaves hw nodespecLength hlost.1 hlost.2
    rw [hcall, hbuilds.right_iff] at h
    exact ⟨hlost.2, (built_right_iff hduplicated hlost.1 (seen_cases acs a)
      (seen_cases secondary b)).mp h⟩

theorem nodespecRight_of_condition (nodespecLength : Bool)
    (h : NodespecCondition place readable nodespec σ acs secondary s a b) :
    NodespecRight (doubled quotationMark s ++ a ++ b) nodespecLength
      (libBuildNodespec place readable quoteText doubleQuoteText primary nodespec acs secondary
        nodespecLength σ) := by
  obtain ⟨hfront, hmarks⟩ := h
  obtain ⟨result, t, hcall, hduplicated, hbuilds⟩ :=
    libBuildNodespec_leaves hw nodespecLength hmarks.mem hfront
  rw [hcall, hbuilds.right_iff]
  exact (built_right_iff hduplicated hmarks.mem (seen_cases acs a) (seen_cases secondary b)).mpr hmarks

/-- **Node specifications.** `lib$build_nodespec` leaves the name with its quotation marks doubled, and
the arguments behind it, exactly under this condition. -/
theorem nodespec_right_iff (nodespecLength : Bool) :
    NodespecRight (doubled quotationMark s ++ a ++ b) nodespecLength
        (libBuildNodespec place readable quoteText doubleQuoteText primary nodespec acs secondary
          nodespecLength σ) ↔
      NodespecCondition place readable nodespec σ acs secondary s a b :=
  ⟨condition_of_nodespecRight hw, nodespecRight_of_condition hw nodespecLength⟩

end right

/-- An argument that is not there. -/
def absent : Argument := ⟨0, nullString⟩

/-- Two marks, and behind them the name: everything is outside the heap. -/
def markStore (s : List Byte) : Store := textStore (quotationMark :: quotationMark :: s) 0

theorem markWorld (hs : s.length < 65530) :
    NodespecWorld (above (s.length + 4)) (· < s.length + 4) (fun _ => true) (markStore s) 1 1
      ⟨BitVec.ofNat 16 s.length, .s, 3⟩ nullString absent absent 3 s [] [] := by
  have hbytes := textStore_bytes (quotationMark :: quotationMark :: s) 0
  have hgiven : Given (· < s.length + 4) (markStore s) [nullString.aPointer] absent [] :=
    ⟨fun _ => rfl, fun h => absurd rfl h⟩
  have hsource : ∀ o (u : List Byte), o + u.length ≤ s.length + 2 →
      ((quotationMark :: quotationMark :: s).drop o).take u.length = u →
        Source (· < s.length + 4) (markStore s) [nullString.aPointer]
          ⟨BitVec.ofNat 16 u.length, .s, 1 + o⟩ (1 + o) u := by
    intro o u hle hu
    refine Source.of_static (by omega) (by omega) ?_ fun i _ hi => ?_
    · rw [markStore, bytesAt_part hbytes (Or.inr hle), hu]
    · show i < s.length + 4
      omega
  constructor
  · exact above_allocates _
  · exact fun σ n _ => above_ne_zero (by omega) σ n
  · exact textStore_tidy _ _
  · exact fun _ _ => rfl
  · exact ⟨[], nullString_dynamic _⟩
  · exact hsource 0 [quotationMark] (by simp) rfl
  · exact hsource 0 [quotationMark, quotationMark] (by simp) rfl
  · exact hsource 2 s (by omega) (List.take_length ..)
  · decide
  · exact hgiven
  · exact hgiven

theorem nodespec_right_iff_marks :
    NodespecRight [34, 34, 34, 34] true
        (libBuildNodespec (above 6) (fun _ => true) 1 1 ⟨2, .s, 3⟩ nullString absent absent true
          (markStore [34, 34])) ↔
      NodespecCondition (above 6) (fun _ => true) nullString (markStore [34, 34]) absent absent
        [34, 34] [] [] :=
  nodespec_right_iff (markWorld (by decide : [34, 34].length < 65530)) true

/-- The mark of `a"b` is not doubled. -/
theorem single_mark_lost :
    ¬ NodespecRight [97, 34, 34, 98] true
      (libBuildNodespec (above 7) (fun _ => true) 1 1 ⟨3, .s, 3⟩ nullString absent absent true
        (markStore [97, 34, 98])) := by
  intro h
  have hmarks := (condition_of_nodespecRight (markWorld (s := [97, 34, 98]) (by decide)) h).2
  rw [MarksRight, if_neg (by decide)] at hmarks
  revert hmarks
  decide

end FreeVMS.Rtl.Str
