import FreeVMS.BTree.InsertSpec

/-!
# Runs of insertions

`objBTIns_spec` says what one call of `ObjBTIns` can do; `insertRun` is a sequence of
calls on one tree.  The pages come from a pool whose answers are arbitrary.
-/

namespace FreeVMS.BTree

open IntervalList

/-- The tree before the first insertion. -/
def emptyTree : BTreeS := { depth := 0, root := .null }

/-- The tree is empty or a tree of `depth` levels of pages. -/
def Formed (order : Nat) (keyed : Bool) (lo : Nat) (t : BTreeS) : Prop :=
  t.root = .null ∨ ∃ n, t.depth = n + 1 ∧ Good keyed lo (maxKey order) (n + 1) t.root

/-- How many pages an insertion asks for: one for each split, and one for a new root. -/
def pagesNeeded (order : Nat) (o : Memsection) : BTPtr → Nat
  | .null => 1
  | t => splitCount order o t + if splits order o t then 1 else 0

/-- The pool answers every one of the next `n` requests with a page. -/
def Granted (pool : PagePool) (n : Nat) : Prop := ∀ i < n, pool.grant (pool.asked + i) ≠ none

/-- What one call of `ObjBTIns` can do. -/
inductive InsStep (order : Nat) (keyed : Bool) (lo : Nat) (o : Memsection) (t : BTreeS)
    (pool : PagePool) (out : InsOut) : Prop
  | refused (s : BTStatus) (hrefusal : refusal o t.root = some s) (hstatus : out.status = .ok)
      (htree : out.btree = t)
  | stored (hrefusal : refusal o t.root = none)
      (hgranted : Granted pool (pagesNeeded order o t.root)) (hstatus : out.status = .ok)
      (hput : PutIn keyed o (objs t.root) (objs out.btree.root))
  | starved (hrefusal : refusal o t.root = none)
      (hfail : ∃ i < splitCount order o t.root, pool.grant (pool.asked + i) = none)
      (hneed : splitCount order o t.root ≤ pagesNeeded order o t.root)
      (hstatus : out.status = .ok)
  | rootless (hrefusal : refusal o t.root = none)
      (hgranted : Granted pool (splitCount order o t.root))
      (hneed : pagesNeeded order o t.root = splitCount order o t.root + 1)
      (hfail : pool.grant (pool.asked + splitCount order o t.root) = none)
      (hstatus : out.status = .allocFail)
      (hlow : ∀ x, x ∈ objs out.btree.root ↔ x ∈ lowerHalf order o t.root)

section

variable {order : Nat} {keyed : Bool} {lo : Nat} {o : Memsection}

theorem growRoot_objs (newroot : BTPage) (k : Nat) (l r : BTPtr) :
    objs (growRoot newroot k l r).ptr = objs l ++ objs r := by
  show objs (.page 1 false newroot.pad _ _) = _
  rw [objs_page, seg_add _ 0 1 1, seg_one, seg_one]
  rfl

theorem growRoot_good {n : Nat} {newroot : BTPage} {k : Nat} {l r : BTPtr}
    (ho : ValidOrder order) (hl : Good keyed lo (maxKey order) (n + 1) l)
    (hr : Good keyed lo (maxKey order) (n + 1) r) (hlk : lo ≤ l.keys) (hrk : lo ≤ r.keys)
    (hk : KeyOk keyed k r) :
    Good keyed lo (maxKey order) (n + 2) (growRoot newroot k l r).ptr := by
  have hmin := ho.two_le_min
  have hmax := ho.max_eq
  refine ⟨show 1 ≤ maxKey order by omega, (decide_eq_false (by omega)).symm, ?_, ?_⟩
  · intro i hi
    rcases (show i = 0 ∨ i = 1 by have : i ≤ 1 := hi; omega) with rfl | rfl
    · exact ⟨hl, fun _ => hlk⟩
    · exact ⟨hr, fun _ => hrk⟩
  · intro i hi
    obtain rfl : i = 0 := by have : i < 1 := hi; omega
    exact hk

/-- The first object of all makes a leaf with no key. -/
theorem single_good (pad : Nat) :
    Good keyed lo (maxKey order) 1
      (.page 0 true pad (fun _ => 0) (Function.update (fun _ => .null) 0 (.obj o))) := by
  refine ⟨Nat.zero_le _, rfl, fun i hi => ?_, fun i hi => absurd hi (Nat.not_lt_zero i)⟩
  obtain rfl : i = 0 := Nat.le_zero.mp hi
  exact ⟨⟨o, rfl⟩, fun h0 => absurd rfl h0⟩

/-- `ObjBTIns` on a tree with pages: what it makes of the result of `BTInsert`. -/
theorem objBTIns_page {hi n : Nat} (depth : Nat) {root ngb : BTPtr} {pool : PagePool} {r : BTOut}
    (hg : Good keyed lo hi (n + 1) root) (hr : btInsert order o root ngb pool = some r) :
    objBTIns order ⟨depth, root⟩ o ngb pool =
      match r.result with
      | .promotion k p =>
          match objAllocPage r.pool with
          | (none, pool) => some ⟨.allocFail, ⟨depth, r.current⟩, r.ngb, pool⟩
          | (some newroot, pool) =>
              some ⟨.ok, ⟨depth + 1, (growRoot newroot k r.current p).ptr⟩, r.ngb, pool⟩
      | _ => some ⟨.ok, ⟨depth, r.current⟩, r.ngb, r.pool⟩ := by
  obtain ⟨count, isleaf, pad, key, child, rfl⟩ := hg.page_eq
  cases hres : r.result with
  | promotion k p =>
    rcases hpage : objAllocPage r.pool with ⟨_ | newroot, pool'⟩ <;>
      simp only [objBTIns, hr, hres, hpage]
  | ok => simp only [objBTIns, hr, hres]
  | refused s => simp only [objBTIns, hr, hres]

theorem granted_succ {pool : PagePool} {n : Nat}
    (h : ∀ i < n, pool.grant (pool.asked + i) ≠ none) (hlast : pool.grant (pool.asked + n) ≠ none) :
    ∀ i < n + 1, pool.grant (pool.asked + i) ≠ none := by
  intro i hi
  rcases Nat.lt_succ_iff_lt_or_eq.mp hi with hi | rfl
  · exact h i hi
  · exact hlast

/-- **`ObjBTIns`.**  One call refuses, stores, or runs out of pages, and the tree keeps its
    shape. -/
theorem objBTIns_spec (ho : ValidOrder order) (hlo : lo ≤ minKey order) {t : BTreeS}
    (hform : Formed order keyed lo t) (hs : Sound order keyed o t.root) (ngb : BTPtr)
    (pool : PagePool) :
    ∃ out, objBTIns order t o ngb pool = some out ∧ out.pool.grant = pool.grant ∧
      Formed order keyed lo out.btree ∧ InsStep order keyed lo o t pool out := by
  obtain ⟨depth, root⟩ := t
  rcases hform with hnull | ⟨n, hdepth, hg⟩
  · -- an empty tree: the only request is for the root
    have hroot : root = .null := hnull
    subst hroot
    unfold objBTIns objAllocPage
    cases hgr : pool.grant pool.asked with
    | none =>
      refine ⟨_, rfl, rfl, Or.inl rfl, .rootless rfl ?_ rfl hgr rfl fun x => Iff.rfl⟩
      exact fun i hi => absurd hi (Nat.not_lt_zero i)
    | some pad =>
      refine ⟨_, rfl, rfl, Or.inr ⟨0, rfl, single_good pad⟩, .stored rfl ?_ rfl ?_⟩
      · intro i hi
        obtain rfl : i = 0 := Nat.lt_one_iff.mp hi
        rw [Nat.add_zero, hgr]
        exact Option.some_ne_none _
      · exact ⟨[], [], rfl, rfl, fun _ => ⟨fun a ha => absurd ha List.not_mem_nil,
          fun b hb => absurd hb List.not_mem_nil⟩⟩
  · obtain ⟨count, isleaf, pad, key, child, heq⟩ := Good.page_eq hg
    have hroot : root = .page count isleaf pad key child := heq
    have hd : depth = n + 1 := hdepth
    subst hd
    obtain ⟨r, hr, hgrant, hpost⟩ := btInsert_spec ho hlo n root hg hs ngb pool
    have hneed : pagesNeeded order o root =
        splitCount order o root + if splits order o root then 1 else 0 := by
      rw [hroot]; rfl
    rw [objBTIns_page (n + 1) hg hr]
    cases hres : r.result with
    | refused s =>
      simp only [hres] at hpost
      refine ⟨_, rfl, hgrant, ?_⟩
      rcases hpost with ⟨h1, h2, h3⟩ | ⟨h1, h2, h3, h4, h5, h6, h7⟩
      · rw [h2]
        exact ⟨Or.inr ⟨n, rfl, hg⟩, .refused s h1 rfl rfl⟩
      · exact ⟨Or.inr ⟨n, rfl, h4⟩, .starved h1 h3 (hneed ▸ Nat.le_add_right _ _) rfl⟩
    | ok =>
      simp only [hres] at hpost
      obtain ⟨h1, h2, h3, h4, h5, h6, h7⟩ := hpost
      refine ⟨_, rfl, hgrant, Or.inr ⟨n, rfl, h3⟩, .stored h1 ?_ rfl h4⟩
      rw [hneed, h2]
      exact h6
    | promotion k p =>
      simp only [hres] at hpost
      obtain ⟨h1, h2, h3, h4, h5, h6, h7, h8, h9, h10, h11⟩ := hpost
      rw [h2, if_pos rfl] at hneed
      have hnext : r.pool.grant r.pool.asked =
          pool.grant (pool.asked + splitCount order o root) := by rw [hgrant, h11]
      unfold objAllocPage
      cases hgr : r.pool.grant r.pool.asked with
      | none =>
        refine ⟨_, rfl, hgrant, Or.inr ⟨n, rfl, h3⟩, .rootless h1 h10 hneed ?_ rfl h9⟩
        rw [← hnext]
        exact hgr
      | some pad' =>
        refine ⟨_, rfl, hgrant, Or.inr ⟨n + 1, rfl, ?_⟩, .stored h1 ?_ rfl ?_⟩
        · exact growRoot_good ho h3 h4 (by omega) (by omega) h6
        · rw [hneed]
          exact granted_succ h10 (by rw [← hnext, hgr]; exact Option.some_ne_none _)
        · show PutIn keyed o (objs root) (objs (growRoot _ k r.current p).ptr)
          rw [growRoot_objs]
          exact h5

end

/-! ### Sequences of calls -/

/-- A sequence of `ObjBTIns` calls; the neighbour they return is ignored, as in
    `insert()`. -/
def insertRun (order : Nat) : List Memsection → BTreeS → PagePool → Option (BTreeS × PagePool)
  | [], t, pool => some (t, pool)
  | o :: os, t, pool =>
      match objBTIns order t o .null pool with
      | none => none
      | some out => insertRun order os out.btree out.pool

/-- `P` holds of the tree and the object at each call of the run. -/
def Along (order : Nat) (P : BTreeS → Memsection → Prop) :
    List Memsection → BTreeS → PagePool → Prop
  | [], _, _ => True
  | o :: os, t, pool =>
      P t o ∧ ∀ out, objBTIns order t o .null pool = some out →
        Along order P os out.btree out.pool

theorem along_cons {order : Nat} {P : BTreeS → Memsection → Prop} {o : Memsection}
    {os : List Memsection} {t : BTreeS} {pool : PagePool} {out : InsOut}
    (hout : objBTIns order t o .null pool = some out) (h : P t o)
    (hrest : Along order P os out.btree out.pool) : Along order P (o :: os) t pool := by
  refine ⟨h, fun out' hout' => ?_⟩
  obtain rfl : out = out' := Option.some.inj (hout.symm.trans hout')
  exact hrest

theorem along_of_forall {order : Nat} {P : BTreeS → Memsection → Prop} (h : ∀ t o, P t o) :
    ∀ (os : List Memsection) (t : BTreeS) (pool : PagePool), Along order P os t pool := by
  intro os
  induction os with
  | nil => exact fun _ _ => trivial
  | cons o os ih => exact fun t pool => ⟨h t o, fun out _ => ih out.btree out.pool⟩

/-- The invariant rule for runs: `I` relates the tree to the objects inserted so far, the
    latest one first. -/
theorem insertRun_induction {order : Nat} {P : BTreeS → Memsection → Prop}
    {I : List Memsection → BTreeS → PagePool → Prop} {Q : List Memsection → Memsection → Prop}
    (hstep : ∀ done t pool o, I done t pool → P t o → Q done o →
      ∃ out, objBTIns order t o .null pool = some out ∧ I (o :: done) out.btree out.pool) :
    ∀ (os done : List Memsection) (t : BTreeS) (pool : PagePool), I done t pool →
      Along order P os t pool →
      (∀ p o s, os = p ++ o :: s → Q (p.reverse ++ done) o) →
      ∃ t' pool', insertRun order os t pool = some (t', pool') ∧
        I (os.reverse ++ done) t' pool' := by
  intro os
  induction os with
  | nil => exact fun done t pool hI _ _ => ⟨t, pool, rfl, hI⟩
  | cons o os ih =>
    intro done t pool hI hP hQ
    obtain ⟨out, hout, hI'⟩ := hstep done t pool o hI hP.1 (hQ [] o os rfl)
    have hQ' : ∀ p o' s, os = p ++ o' :: s → Q (p.reverse ++ o :: done) o' := by
      intro p o' s hos
      have := hQ (o :: p) o' s (by rw [hos]; rfl)
      rwa [List.reverse_cons, List.append_assoc] at this
    obtain ⟨t', pool', hrun, hI''⟩ := ih (o :: done) out.btree out.pool hI' (hP.2 out hout) hQ'
    refine ⟨t', pool', ?_, ?_⟩
    · rw [insertRun, hout]
      exact hrun
    · rwa [List.reverse_cons, List.append_assoc]

theorem deployed_order : ValidOrder 255 := ⟨by decide, by decide⟩

/-- A pool that never runs out. -/
def endlessPool : PagePool := { grant := fun _ => some 0, asked := 0 }

theorem endlessPool_grants (i : Nat) : endlessPool.grant i ≠ none := Option.some_ne_none _

end FreeVMS.BTree
