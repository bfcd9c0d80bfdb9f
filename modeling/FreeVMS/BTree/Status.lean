import FreeVMS.BTree.Table

/-!
# The status of an insertion

What `ObjBTIns` and `insert()` report, against what they did.  Every refusal comes up
through the recursion as a status code and is dropped by the last statement of
`ObjBTIns`, so the report is right exactly when nothing had to be refused, with one
exception: a page that is missing for a new root.
-/

namespace FreeVMS.BTree

/-- `insert()` of `sys_objtables.c`. -/
def insert (order : Nat) (t : BTreeS) (memsection : Memsection) (pool : PagePool) :
    Option (Int × BTreeS × PagePool) :=
  match objBTIns order t memsection .null pool with
  | none => none
  | some out => some (if out.status.code ≠ BTStatus.ok.code then -1 else 0, out.btree, out.pool)

/-- The contract of `ObjBTIns` in `b_plus_tree.h`, and of `insert()` towards the cleanup
    code of its callers. -/
structure Honest (order : Nat) (t : BTreeS) (o : Memsection) (pool : PagePool) (out : InsOut)
    (r : Int) : Prop where
  ok_iff : out.status = .ok ↔ o ∈ objs out.btree.root
  refused : ∀ s, refusal o t.root = some s → out.status = s
  alloc : refusal o t.root = none → ¬ Granted pool (pagesNeeded order o t.root) →
    out.status = .allocFail
  insert_iff : r = 0 ↔ o ∈ objs out.btree.root

/-- Nothing is refused and every page is there; or only the page of a new root is missing
    and the object goes down with the half that is lost. -/
def Reportable (order : Nat) (t : BTreeS) (o : Memsection) (pool : PagePool) : Prop :=
  refusal o t.root = none ∧
    (Granted pool (pagesNeeded order o t.root) ∨
      Granted pool (splitCount order o t.root) ∧ o ∉ lowerHalf order o t.root)

theorem refusal_ne_ok (o : Memsection) (t : BTPtr) : refusal o t ≠ some .ok := by
  induction t with
  | null => simp [refusal]
  | obj c => simp [refusal]
  | page count isleaf pad key child ih =>
    rw [refusal]
    cases insertIndex key o.base count 0 count with
    | none => simp
    | some h =>
      simp only
      split
      · simp
      · split
        · split
          · split <;> simp
          · simp
        · exact ih h

section

variable {order : Nat} {o : Memsection} {t : BTreeS} {pool : PagePool}

theorem insert_code_zero_iff {out : InsOut} (hout : objBTIns order t o .null pool = some out) :
    ∃ r, insert order t o pool = some (r, out.btree, out.pool) ∧
      (r = 0 ↔ out.status = .ok) := by
  refine ⟨_, by rw [insert, hout], ?_⟩
  cases out.status <;> decide

/-- One call of `ObjBTIns` reports what it did exactly under `Reportable`. -/
theorem InsStep.honest_iff {out : InsOut} {r : Int} (h : InsStep order false 0 o t pool out)
    (hr : r = 0 ↔ out.status = .ok) : Honest order t o pool out r ↔ Reportable order t o pool := by
  cases h with
  | refused s hrefusal hstatus htree =>
    constructor
    · intro hh
      have := hh.refused s hrefusal
      rw [hstatus] at this
      exact absurd (this ▸ hrefusal) (refusal_ne_ok o t.root)
    · intro hc
      rw [hc.1] at hrefusal
      cases hrefusal
  | stored hrefusal hgranted hstatus hput =>
    have hmem : o ∈ objs out.btree.root := hput.perm.mem_iff.mpr List.mem_cons_self
    refine ⟨fun _ => ⟨hrefusal, Or.inl hgranted⟩, fun _ => ⟨?_, ?_, ?_, ?_⟩⟩
    · exact ⟨fun _ => hmem, fun _ => hstatus⟩
    · intro s hs
      rw [hrefusal] at hs
      cases hs
    · exact fun _ hno => absurd hgranted hno
    · exact hr.trans ⟨fun _ => hmem, fun _ => hstatus⟩
  | starved hrefusal hfail hneed hstatus =>
    obtain ⟨i, hi, hnone⟩ := hfail
    constructor
    · intro hh
      have := hh.alloc hrefusal fun hg => hg i (by omega) hnone
      rw [hstatus] at this
      cases this
    · rintro ⟨-, hg | ⟨hg, -⟩⟩
      · exact absurd hnone (hg i (by omega))
      · exact absurd hnone (hg i hi)
  | rootless hrefusal hgranted hneed hfail hstatus hlow =>
    have hne : out.status ≠ .ok := by rw [hstatus]; decide
    constructor
    · intro hh
      refine ⟨hrefusal, Or.inr ⟨hgranted, fun hmem => ?_⟩⟩
      exact hne (hh.ok_iff.mpr ((hlow o).mpr hmem))
    · rintro ⟨-, hg | ⟨-, hnot⟩⟩
      · exact absurd hfail (hg _ (by omega))
      · have hgone : o ∉ objs out.btree.root := fun hmem => hnot ((hlow o).mp hmem)
        refine ⟨?_, ?_, fun _ _ => hstatus, ?_⟩
        · exact ⟨fun h => absurd h hne, fun h => absurd h hgone⟩
        · intro s hs
          rw [hrefusal] at hs
          cases hs
        · exact hr.trans ⟨fun h => absurd h hne, fun h => absurd h hgone⟩

/-- The shape survives every insertion, whatever the objects and the pool. -/
theorem insertRun_formed (ho : ValidOrder order) (os : List Memsection) (pool : PagePool) :
    ∃ t' pool', insertRun order os emptyTree pool = some (t', pool') ∧
      Formed order false 0 t' := by
  have hstep : ∀ (done : List Memsection) (t : BTreeS) (pool : PagePool) (o : Memsection),
      Formed order false 0 t → True → True →
      ∃ out, objBTIns order t o .null pool = some out ∧ Formed order false 0 out.btree := by
    intro done t pool o hform _ _
    obtain ⟨out, hout, -, hform', -⟩ :=
      objBTIns_spec ho (Nat.zero_le _) hform (fun h => absurd h (by decide)) .null pool
    exact ⟨out, hout, hform'⟩
  exact insertRun_induction hstep os [] emptyTree pool (Or.inl rfl)
    (along_of_forall (fun _ _ => trivial) os emptyTree pool) fun _ _ _ _ => trivial

end

/-- **What `ObjBTIns` reports.**  In every tree that a sequence of insertions leads to, with
    arbitrary objects and arbitrary answers of the page pool, the next call is honest about
    its object exactly when it is `Reportable`. -/
theorem objBTIns_honest_iff {order : Nat} (ho : ValidOrder order) (os : List Memsection)
    (pool₀ : PagePool) :
    ∃ t pool, insertRun order os emptyTree pool₀ = some (t, pool) ∧
      ∀ o, ∃ out r, objBTIns order t o .null pool = some out ∧
        insert order t o pool = some (r, out.btree, out.pool) ∧
        (Honest order t o pool out r ↔ Reportable order t o pool) := by
  obtain ⟨t, pool, hrun, hform⟩ := insertRun_formed ho os pool₀
  refine ⟨t, pool, hrun, fun o => ?_⟩
  obtain ⟨out, hout, -, -, hstep⟩ :=
    objBTIns_spec ho (Nat.zero_le _) hform (fun h => absurd h (by decide)) .null pool
  obtain ⟨r, hins, hr⟩ := insert_code_zero_iff hout
  exact ⟨out, r, hout, hins, hstep.honest_iff hr⟩

theorem objBTIns_honest_iff_deployed :
    ValidOrder 255 ∧ ∃ t pool, insertRun 255 [⟨1, 10, 20⟩] emptyTree endlessPool = some (t, pool) ∧
      ∀ o, ∃ out r, objBTIns 255 t o .null pool = some out ∧
        insert 255 t o pool = some (r, out.btree, out.pool) ∧
        (Honest 255 t o pool out r ↔ Reportable 255 t o pool) :=
  ⟨deployed_order, objBTIns_honest_iff deployed_order [⟨1, 10, 20⟩] endlessPool⟩

/-- The tree holds `[10, 20]`; the insertion of `[15, 25]` is refused and reported as
    success. -/
theorem objBTIns_refusal_reported_ok :
    ∃ t pool out r, insertRun 255 [⟨1, 10, 20⟩] emptyTree endlessPool = some (t, pool) ∧
      objBTIns 255 t ⟨2, 15, 25⟩ .null pool = some out ∧
      insert 255 t ⟨2, 15, 25⟩ pool = some (r, out.btree, out.pool) ∧
      refusal ⟨2, 15, 25⟩ t.root = some .overlap ∧ out.status = .ok ∧ r = 0 ∧
      ⟨2, 15, 25⟩ ∉ objs out.btree.root ∧ ¬ Honest 255 t ⟨2, 15, 25⟩ pool out r := by
  refine ⟨_, _, _, _, rfl, rfl, rfl, by decide +kernel, by decide +kernel, by decide +kernel,
    by decide +kernel, ?_⟩
  intro h
  exact absurd (h.insert_iff.mp (by decide +kernel)) (by decide +kernel)

end FreeVMS.BTree
