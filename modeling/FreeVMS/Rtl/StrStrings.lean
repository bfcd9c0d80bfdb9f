import FreeVMS.Rtl.StrDynamic

/-!
# Several strings

The routines that work on several dynamic strings at a time, most of them temporary. A call works on
the first string of a list, and the others stay.
-/

namespace FreeVMS.Rtl.Str

/-- `str$$malloc_sd(&temp, "NULL")` -/
def nullString : Descriptor := ⟨0, .d, 0⟩

theorem nullString_dynamic (σ : Store) : Dynamic σ nullString [] :=
  ⟨rfl, rfl, rfl, Or.inl ⟨rfl, rfl⟩⟩

/-- Between two stores nothing has changed but the blocks of `own`, which are now those of dynamic
strings. -/
structure Strings (static : Nat → Prop) (σ : Store) (own : List Nat) (σ' : Store)
    (strings : List (Descriptor × List Byte)) : Prop where
  tidy : Tidy static σ'
  dynamic : ∀ d s, (d, s) ∈ strings → Dynamic σ' d s
  distinct : strings.Pairwise fun e e' => Distinct e.1.aPointer e'.1.aPointer
  frame : Frame static σ own σ' (strings.map fun e => e.1.aPointer)

variable {static : Nat → Prop} {σ σ' : Store} {own : List Nat} {d d' source : Descriptor}
  {s t : List Byte} {p : Nat} {strings strings' : List (Descriptor × List Byte)}

theorem Dynamic.text (h : Dynamic σ d s) : Text σ.memory d d.aPointer s :=
  ⟨by rw [h.analyzed, h.wLength_eq], h.lt, h.bytes⟩

namespace Strings

theorem start (hσ : Tidy static σ) (hd : Dynamic σ d s) :
    Strings static σ [d.aPointer] σ [(d, s)] := by
  refine ⟨hσ, ?_, List.pairwise_singleton _ _, Frame.refl⟩
  intro d' s' hmem
  cases List.mem_singleton.mp hmem
  exact hd

theorem head (h : Strings static σ own σ' ((d, s) :: strings)) : Dynamic σ' d s :=
  h.dynamic d s List.mem_cons_self

theorem perm (h : Strings static σ own σ' strings) (hperm : strings.Perm strings') :
    Strings static σ own σ' strings' := by
  constructor
  · exact h.tidy
  · exact fun d s hmem => h.dynamic d s (hperm.mem_iff.mpr hmem)
  · exact (hperm.pairwise_iff fun hdistinct => hdistinct.symm).mp h.distinct
  · exact h.frame.weaken (List.Subset.refl _) (hperm.map _).symm.subset

/-- Another string, with nothing in it. -/
theorem null (h : Strings static σ own σ' strings) :
    Strings static σ own σ' ((nullString, []) :: strings) := by
  constructor
  · exact h.tidy
  · intro d s hmem
    rcases List.mem_cons.mp hmem with heq | hmem
    · cases heq
      exact nullString_dynamic σ'
    · exact h.dynamic d s hmem
  · exact List.pairwise_cons.mpr ⟨fun _ _ => Or.inl rfl, h.distinct⟩
  · exact h.frame.trans (Frame.null h.tidy)

/-- What a call on the first string leaves. -/
theorem call (h : Strings static σ own σ' ((d, s) :: strings)) {out : Outcome}
    (hout : Leaves static σ' d.aPointer t out) :
    Strings static σ own out.store ((out.destination, t) :: strings) := by
  obtain ⟨hfirst, hdistinct⟩ := List.pairwise_cons.mp h.distinct
  have hothers : ∀ d' s', (d', s') ∈ strings →
      Dynamic out.store d' s' ∧ Distinct d'.aPointer out.destination.aPointer :=
    fun d' s' hmem => (h.dynamic d' s' (List.mem_cons_of_mem _ hmem)).frame
      (hfirst (d', s') hmem).symm hout.frame
  constructor
  · exact hout.tidy
  · intro d' s' hmem
    rcases List.mem_cons.mp hmem with heq | hmem
    · cases heq
      exact hout.dynamic
    · exact (hothers d' s' hmem).1
  · exact List.pairwise_cons.mpr ⟨fun e hmem => (hothers e.1 e.2 hmem).2.symm, hdistinct⟩
  · exact h.frame.trans (hout.frame.append _)

/-- A string that is no longer used. -/
theorem forget (h : Strings static σ own σ' ((d, s) :: strings)) :
    Strings static σ own σ' strings := by
  constructor
  · exact h.tidy
  · exact fun d' s' hmem => h.dynamic d' s' (List.mem_cons_of_mem _ hmem)
  · exact h.distinct.of_cons
  · exact h.frame.weaken (List.Subset.refl _) (List.subset_cons_self _ _)

/-- A source from outside stays one for a call on the first string. -/
theorem outside (h : Strings static σ own σ' ((d, s) :: strings))
    (hs : Source static σ own source p t) : Source static σ' [d.aPointer] source p t :=
  (hs.frame h.frame).mono (by simp)

/-- Another string is a source for a call on the first one. -/
theorem other (h : Strings static σ own σ' ((d, s) :: strings)) (hmem : (d', t) ∈ strings) :
    Source static σ' [d.aPointer] d' d'.aPointer t :=
  (h.dynamic d' t (List.mem_cons_of_mem _ hmem)).to_source
    ((List.pairwise_cons.mp h.distinct).1 (d', t) hmem).symm

/-- So is the second one. -/
theorem second (h : Strings static σ own σ' ((d, s) :: (d', t) :: strings)) :
    Source static σ' [d.aPointer] d' d'.aPointer t :=
  h.other List.mem_cons_self

end Strings

end FreeVMS.Rtl.Str
