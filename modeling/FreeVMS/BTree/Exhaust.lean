import FreeVMS.BTree.Search
import Mathlib.Data.List.Perm.Subperm

/-!
# A page that is missing

`BTInsert` splits from the leaf upwards, and asks for a page at each level before it splits there.  The
first request of a call is for the leaf (or for the first leaf of all), when nothing has been changed
yet.  When a later one is turned down, the level below is split already, and its upper half hangs
on the promoted pointer that nobody stores.
-/

namespace FreeVMS.BTree

open IntervalList

/-- The call asks for a page and gets none. -/
def Starves (pool pool' : PagePool) : Prop :=
  ∃ i, pool.asked ≤ i ∧ i < pool'.asked ∧ pool.grant i = none

/-- The request with the number `m` of the call is the last one, and the only one that is turned
    down. -/
structure FailsAt (pool pool' : PagePool) (m : Nat) : Prop where
  asked : pool'.asked = pool.asked + m + 1
  last : pool.grant (pool.asked + m) = none
  before : ∀ i < m, pool.grant (pool.asked + i) ≠ none

/-- At least three of the objects, the new one among them or not, are gone. -/
def Loses (o : Memsection) (xs ys : List Memsection) : Prop :=
  ∃ lost : List Memsection, 3 ≤ lost.length ∧ (ys ++ lost).Perm (o :: xs)

section

variable {order : Nat} {o : Memsection}

theorem Loses.window {xs ys : List Memsection} (h : Loses o xs ys) (l r : List Memsection) :
    Loses o (l ++ xs ++ r) (l ++ ys ++ r) := by
  obtain ⟨lost, hlen, hperm⟩ := h
  refine ⟨lost, hlen, ?_⟩
  calc l ++ ys ++ r ++ lost
    _ |>.Perm (l ++ ys ++ lost ++ r) := by
      rw [List.append_assoc (l ++ ys), List.append_assoc (l ++ ys)]
      exact List.perm_append_comm.append_left _
    _ |>.Perm (l ++ (o :: xs) ++ r) := by
      rw [List.append_assoc l]
      exact (hperm.append_left l).append_right r
    _ |>.Perm (o :: (l ++ xs ++ r)) := by
      rw [List.append_assoc, List.append_assoc]
      exact List.perm_middle

/-- An old object that is gone for good. -/
theorem Loses.exists_lost {xs ys : List Memsection} (h : Loses o xs ys) (hnodup : xs.Nodup) :
    ∃ x ∈ xs, x ∉ ys := by
  obtain ⟨lost, hlen, hperm⟩ := h
  obtain ⟨x, hx, hne⟩ : ∃ x ∈ lost, x ≠ o := by
    by_contra hall
    push Not at hall
    have hsame : lost.count o = lost.length := List.count_eq_length.mpr fun x hx => (hall x hx).symm
    have hcount := hperm.count_eq o
    have hone := List.nodup_iff_count_le_one.mp hnodup o
    rw [List.count_append, List.count_cons_self] at hcount
    omega
  have hcount := hperm.count_eq x
  have hone := List.nodup_iff_count_le_one.mp hnodup x
  have hpos := List.count_pos_iff.mpr hx
  rw [List.count_append, List.count_cons_of_ne hne.symm] at hcount
  exact ⟨x, List.count_pos_iff.mp (by omega), fun hmem => by
    have := List.count_pos_iff.mpr hmem
    omega⟩

/-- The upper half of a split page that nobody stores. -/
theorem loses_of_split {keyed : Bool} {lo hi n : Nat} {p : BTPtr} {xs ys : List Memsection}
    (hv : ValidOrder order) (hp : Good keyed lo hi (n + 1) p) (hkeys : p.keys = minKey order)
    (hput : PutIn keyed o xs (ys ++ objs p)) : Loses o xs ys := by
  have hmin := hv.two_le_min
  have hlen := hp.keys_lt_length
  exact ⟨objs p, by omega, hput.perm⟩

theorem splitCount_pos {t : BTPtr} (h : splits order o t = true) : 0 < splitCount order o t := by
  cases t with
  | null => simp [splits] at h
  | obj c => simp [splits] at h
  | page count isleaf pad key child =>
    simp only [splits, Bool.and_eq_true, Bool.not_eq_true', decide_eq_false_iff_not] at h
    obtain ⟨hfull, hrest⟩ := h
    cases isleaf with
    | true => simp [splitCount, hfull]
    | false =>
      simp only [Bool.false_or] at hrest
      cases hidx : insertIndex key o.base count 0 count with
      | none => simp [hidx] at hrest
      | some h =>
        simp only [hidx] at hrest
        simp [splitCount, hidx, hfull, hrest]

/-! ### One call -/

theorem btPlace_refused {current : BTPage} {hi : Int} {k : Nat} {p ngb : BTPtr} {pool : PagePool}
    {out : BTOut} {s : BTStatus} (h : btPlace order current hi k p ngb pool = some out)
    (hres : out.result = .refused s) :
    out.current = current.ptr ∧ pool.grant pool.asked = none ∧
      out.pool = { pool with asked := pool.asked + 1 } := by
  unfold btPlace at h
  split at h
  · split at h
    · cases h
    · cases h
      cases hres
  · unfold objAllocPage at h
    cases hg : pool.grant pool.asked with
    | none =>
      simp only [hg, Option.map_none] at h
      cases h
      exact ⟨rfl, rfl, rfl⟩
    | some pad =>
      simp only [hg, Option.map_some] at h
      split at h
      · cases h
      · cases h
        cases hres

/-- The first request has failed and nothing is changed, or a later one and the upper half of the
    page below is lost. -/
def StarvedAt (o : Memsection) (t : BTPtr) (pool : PagePool) (r : BTOut) : Prop :=
  ∃ m, FailsAt pool r.pool m ∧ (m = 0 → r.current = t) ∧
    (0 < m → Loses o (objs t) (objs r.current))

/-- In a leaf there is one request. -/
theorem btInsert_starved_leaf {t ngb : BTPtr} {pool : PagePool} {r : BTOut}
    (hg : Good false 0 (maxKey order) 1 t) (hr : btInsert order o t ngb pool = some r)
    (hres : r.result = .refused .allocFail) (href : refusal o t = none) :
    StarvedAt o t pool r := by
  obtain ⟨count, isleaf, pad, key, child, rfl⟩ := hg.page_eq
  obtain rfl : isleaf = true := hg.2.1
  rw [btInsert] at hr
  rw [refusal] at href
  cases hidx : insertIndex key o.base count 0 count with
  | none => simp [hidx] at href
  | some h =>
    obtain ⟨hh, -, -⟩ := insertIndex_some hidx
    obtain ⟨c, hc⟩ := (hg.2.2.1 h hh).1
    simp only [hidx, hc] at hr href
    by_cases hov : h < count ∧ btObjMatch o (key h) = true
    · simp [hov] at href
    · rw [if_neg hov, if_pos trivial] at hr href
      by_cases hov' : btObjMatch c o.base = true ∨ h = 0 ∧ btOverlaps o c = true
      · simp [hov'] at href
      · rw [if_neg hov'] at hr
        obtain ⟨hcur, hfail, hpool⟩ := btPlace_refused hr hres
        exact ⟨0, ⟨by rw [hpool], hfail, fun i hi => absurd hi (Nat.not_lt_zero i)⟩, fun _ => hcur,
          fun h0 => absurd h0 (Nat.lt_irrefl 0)⟩

/-- In an inner page the request has failed below, or it fails here when the child is split already. -/
theorem btInsert_starved_inner (hv : ValidOrder order) {n : Nat}
    (ih : ∀ t, Good false 0 (maxKey order) (n + 1) t → ∀ ngb pool r,
      btInsert order o t ngb pool = some r → r.result = .refused .allocFail →
        refusal o t = none → StarvedAt o t pool r)
    {t ngb : BTPtr} {pool : PagePool} {r : BTOut} (hg : Good false 0 (maxKey order) (n + 2) t)
    (hr : btInsert order o t ngb pool = some r) (hres : r.result = .refused .allocFail)
    (href : refusal o t = none) : StarvedAt o t pool r := by
  obtain ⟨count, isleaf, pad, key, child, rfl⟩ := hg.page_eq
  obtain rfl : isleaf = false := by rw [hg.2.1]; exact decide_eq_false (by omega)
  rw [btInsert] at hr
  rw [refusal] at href
  cases hidx : insertIndex key o.base count 0 count with
  | none => simp [hidx] at href
  | some h =>
    obtain ⟨hh, -, -⟩ := insertIndex_some hidx
    have hchild := (hg.2.2.1 h hh).1
    simp only [hidx] at hr href
    by_cases hov : h < count ∧ btObjMatch o (key h) = true
    · simp [hov] at href
    · simp only [if_neg hov, Bool.false_eq_true, if_false] at hr href
      obtain ⟨r', hr', hgrant, hpost⟩ := btInsert_spec hv (Nat.zero_le _) n (child h) hchild
        (fun hk => absurd hk (by decide)) ngb pool
      rw [hr'] at hr
      -- what the loss of the child is for the page
      have hwindow : Loses o (objs (child h)) (objs r'.current) →
          Loses o (objs (.page count false pad key child))
            (objs (.page count false pad key (Function.update child h r'.current))) := by
        intro hloses
        rw [objs_page, objs_page, seg_window child hh, seg_window _ hh, Function.update_self,
          seg_update (Or.inr (by omega)), seg_update (Or.inl (by omega))]
        exact hloses.window _ _
      cases hres' : r'.result with
      | refused s =>
        simp only [hres'] at hr
        cases hr
        obtain rfl : s = .allocFail := BTResult.refused.inj hres
        obtain ⟨m, hm, hsame, hloses⟩ := ih (child h) hchild ngb pool r' hr' hres' href
        exact ⟨m, hm, fun h0 => by rw [hsame h0, Function.update_eq_self],
          fun hpos => hwindow (hloses hpos)⟩
      | ok =>
        simp only [hres'] at hr
        cases hr
        cases hres
      | promotion k p =>
        simp only [hres'] at hr hpost
        obtain ⟨-, hsplits, -, hgoodp, hput, -, -, hkeysp, -, hgranted, hasked⟩ := hpost
        obtain ⟨hcur, hfail, hpool⟩ := btPlace_refused hr hres
        refine ⟨splitCount order o (child h), ⟨?_, ?_, hgranted⟩, fun h0 => ?_, fun _ => ?_⟩
        · rw [hpool, hasked]
        · rw [← hasked, ← hgrant]
          exact hfail
        · exact absurd h0 (splitCount_pos hsplits).ne'
        · rw [hcur]
          exact hwindow (loses_of_split hv hgoodp hkeysp hput)

/-- **A missing page in `BTInsert`.** -/
theorem btInsert_starved (hv : ValidOrder order) (n : Nat) : ∀ (t : BTPtr),
    Good false 0 (maxKey order) (n + 1) t → ∀ (ngb : BTPtr) (pool : PagePool) (r : BTOut),
      btInsert order o t ngb pool = some r → r.result = .refused .allocFail →
      refusal o t = none → StarvedAt o t pool r := by
  induction n with
  | zero => exact fun t hg ngb pool r => btInsert_starved_leaf hg
  | succ n ih => exact fun t hg ngb pool r => btInsert_starved_inner hv ih hg

/-- What a call of `ObjBTIns` does with the pages that it gets. -/
inductive Outcome (o : Memsection) (t : BTreeS) (pool : PagePool) (out : InsOut) : Prop
  | fed (hfed : ¬ Starves pool out.pool)
      (hobjs : out.btree = t ∨ (objs out.btree.root).Perm (o :: objs t.root))
  | starved (m : Nat) (hfails : FailsAt pool out.pool m) (hsame : m = 0 → out.btree = t)
      (hloses : 0 < m → Loses o (objs t.root) (objs out.btree.root))

theorem not_starves_of_asked {pool pool' : PagePool} {n : Nat} (hasked : pool'.asked = pool.asked + n)
    (hgranted : ∀ i < n, pool.grant (pool.asked + i) ≠ none) : ¬ Starves pool pool' := by
  rintro ⟨i, hle, hlt, hfail⟩
  refine hgranted (i - pool.asked) (by omega) ?_
  rwa [Nat.add_sub_cancel' hle]

theorem objBTIns_outcome (hv : ValidOrder order) {t : BTreeS} (hform : Formed order false 0 t)
    (ngb : BTPtr) (pool : PagePool) :
    ∃ out, objBTIns order t o ngb pool = some out ∧ Outcome o t pool out := by
  obtain ⟨depth, root⟩ := t
  rcases hform with hnull | ⟨n, -, hg⟩
  · obtain rfl : root = .null := hnull
    unfold objBTIns objAllocPage
    cases hgr : pool.grant pool.asked with
    | none =>
      exact ⟨_, rfl, .starved 0 ⟨rfl, hgr, fun i hi => absurd hi (Nat.not_lt_zero i)⟩ (fun _ => rfl)
        fun h0 => absurd h0 (Nat.lt_irrefl 0)⟩
    | some pad =>
      refine ⟨_, rfl, .fed (not_starves_of_asked (n := 1) rfl fun i hi => ?_) (.inr ?_)⟩
      · obtain rfl : i = 0 := Nat.lt_one_iff.mp hi
        rw [Nat.add_zero, hgr]
        exact Option.some_ne_none _
      · exact List.Perm.refl _
  · obtain ⟨r, hr, hgrant, hpost⟩ := btInsert_spec hv (Nat.zero_le _) n root hg
      (fun hk => absurd hk (by decide)) ngb pool
    rw [objBTIns_page depth hg hr]
    cases hres : r.result with
    | refused s =>
      simp only [hres] at hpost
      refine ⟨_, rfl, ?_⟩
      rcases hpost with ⟨-, hcur, hpool⟩ | ⟨href, rfl, -⟩
      · refine .fed (not_starves_of_asked (n := 0) (by rw [hpool]; rfl) fun i hi => ?_) (.inl ?_)
        · exact absurd hi (Nat.not_lt_zero i)
        · rw [hcur]
      · obtain ⟨m, hm, hsame, hloses⟩ := btInsert_starved hv n root hg ngb pool r hr hres href
        exact .starved m hm (fun h0 => by rw [hsame h0]) hloses
    | ok =>
      simp only [hres] at hpost
      obtain ⟨-, -, -, hput, -, hgranted, hasked⟩ := hpost
      exact ⟨_, rfl, .fed (not_starves_of_asked hasked hgranted) (.inr hput.perm)⟩
    | promotion k p =>
      simp only [hres] at hpost
      obtain ⟨-, hsplits, -, hgoodp, hput, -, -, hkeysp, -, hgranted, hasked⟩ := hpost
      have hnext : r.pool.grant r.pool.asked =
          pool.grant (pool.asked + splitCount order o root) := by rw [hgrant, hasked]
      unfold objAllocPage
      cases hgr : r.pool.grant r.pool.asked with
      | none =>
        refine ⟨_, rfl, .starved (splitCount order o root) ⟨?_, ?_, hgranted⟩ (fun h0 => ?_)
          fun _ => loses_of_split hv hgoodp hkeysp hput⟩
        · show r.pool.asked + 1 = _
          rw [hasked]
        · rw [← hnext]
          exact hgr
        · exact absurd h0 (splitCount_pos hsplits).ne'
      | some pad' =>
        refine ⟨_, rfl, .fed (not_starves_of_asked (n := splitCount order o root + 1) ?_ fun i hi => ?_)
          (.inr ?_)⟩
        · show r.pool.asked + 1 = _
          rw [hasked]
          rfl
        · exact granted_succ hgranted (by rw [← hnext, hgr]; exact Option.some_ne_none _) i hi
        · show (objs (growRoot _ k r.current p).ptr).Perm _
          rw [growRoot_objs]
          exact hput.perm

theorem Loses.subperm {xs ys : List Memsection} (h : Loses o xs ys) : ys.Subperm (o :: xs) := by
  obtain ⟨lost, -, hperm⟩ := h
  exact (List.sublist_append_left ys lost).subperm.trans hperm.subperm

/-- No object gets into the tree but the new one. -/
theorem Outcome.subperm {t : BTreeS} {pool : PagePool} {out : InsOut} (h : Outcome o t pool out) :
    (objs out.btree.root).Subperm (o :: objs t.root) := by
  have hsame : out.btree = t → (objs out.btree.root).Subperm (o :: objs t.root) := fun heq => by
    rw [heq]
    exact (List.sublist_cons_self o _).subperm
  cases h with
  | fed _ hobjs =>
    rcases hobjs with heq | hperm
    · exact hsame heq
    · exact hperm.subperm
  | starved m _ hfirst hloses =>
    rcases Nat.eq_zero_or_pos m with h0 | hpos
    · exact hsame (hfirst h0)
    · exact (hloses hpos).subperm

theorem Outcome.starved_iff {t : BTreeS} {pool : PagePool} {out : InsOut} (h : Outcome o t pool out)
    (hstarves : Starves pool out.pool) :
    (pool.grant pool.asked = none ∧ out.btree = t) ∨
      (pool.grant pool.asked ≠ none ∧ Loses o (objs t.root) (objs out.btree.root)) := by
  cases h with
  | fed hfed => exact absurd hstarves hfed
  | starved m hfails hsame hloses =>
    rcases Nat.eq_zero_or_pos m with rfl | hpos
    · exact .inl ⟨hfails.last, hsame rfl⟩
    · exact .inr ⟨hfails.before 0 hpos, hloses hpos⟩

end

/-! ### Trees that were built -/

/-- A run of insertions, whatever pages it gets, stores nothing but the objects, each at most once. -/
theorem insertRun_subperm {order : Nat} (hv : ValidOrder order) (os : List Memsection)
    (pool : PagePool) : ∃ t pool', insertRun order os emptyTree pool = some (t, pool') ∧
      Formed order false 0 t ∧ (objs t.root).Subperm os := by
  have hstep : ∀ (done : List Memsection) (t : BTreeS) (pool : PagePool) (o : Memsection),
      (Formed order false 0 t ∧ (objs t.root).Subperm done) → True → True →
      ∃ out, objBTIns order t o .null pool = some out ∧
        (Formed order false 0 out.btree ∧ (objs out.btree.root).Subperm (o :: done)) := by
    intro done t pool o hI _ _
    obtain ⟨out, hout, houtcome⟩ := objBTIns_outcome (o := o) hv hI.1 .null pool
    obtain ⟨out', hout', -, hform, -⟩ := objBTIns_spec hv (Nat.zero_le _) hI.1
      (fun hk => absurd hk (by decide)) .null pool
    obtain rfl : out = out' := Option.some.inj (hout.symm.trans hout')
    exact ⟨out, hout, hform, houtcome.subperm.trans ((List.subperm_cons o).mpr hI.2)⟩
  obtain ⟨t, pool', hrun, hform, hsub⟩ := insertRun_induction hstep os [] emptyTree pool
    ⟨.inl rfl, List.nil_subperm⟩ (along_of_forall (fun _ _ => trivial) os emptyTree pool)
    fun _ _ _ _ => trivial
  refine ⟨t, pool', hrun, hform, hsub.trans ?_⟩
  rw [List.append_nil]
  exact (List.reverse_perm os).subperm

theorem nodup_of_disjoint {os : List Memsection} (hos : ∀ o ∈ os, o.base ≤ o.end_)
    (hdisj : os.Pairwise fun x y => ¬ Meets x y) : os.Nodup := by
  refine hdisj.imp_of_mem fun hx _ hno heq => hno ?_
  subst heq
  exact ⟨_, ⟨Nat.le_refl _, hos _ hx⟩, Nat.le_refl _, hos _ hx⟩

/-- Every object of a tree is found at each of its addresses. -/
def AllFound (xs : List Memsection) (t : BTreeS) : Prop :=
  ∀ x ∈ xs, ∀ k, x.Contains k → Found t k x

/-- **Page exhaustion.**  In every tree that disjoint insertions have built, with whatever pages, and
    every further insertion during which a request for a page is turned down, the objects stored
    before are all found afterwards if and only if the first request was the one turned down and they
    were all found before. -/
theorem allFound_starved_iff {order : Nat} (hv : ValidOrder order) (os : List Memsection)
    (hos : ∀ o ∈ os, o.base ≤ o.end_) (hdisj : os.Pairwise fun x y => ¬ Meets x y)
    (pool₀ : PagePool) {t : BTreeS} {pool₁ : PagePool}
    (hrun : insertRun order os emptyTree pool₀ = some (t, pool₁)) (o : Memsection) (ngb : BTPtr)
    (pool : PagePool) : ∃ out, objBTIns order t o ngb pool = some out ∧
      (Starves pool out.pool →
        (AllFound (objs t.root) out.btree ↔
          pool.grant pool.asked = none ∧ AllFound (objs t.root) t)) := by
  obtain ⟨t', pool', hrun', hform, hsub⟩ := insertRun_subperm hv os pool₀
  obtain ⟨rfl, -⟩ : t = t' ∧ pool₁ = pool' :=
    Prod.mk.inj (Option.some.inj (hrun.symm.trans hrun'))
  obtain ⟨out, hout, houtcome⟩ := objBTIns_outcome (o := o) hv hform ngb pool
  refine ⟨out, hout, fun hstarves => ?_⟩
  rcases houtcome.starved_iff hstarves with ⟨hfirst, hsame⟩ | ⟨hfirst, hloses⟩
  · rw [hsame]
    exact ⟨fun h => ⟨hfirst, h⟩, fun h => h.2⟩
  · refine iff_of_false (fun hall => ?_) fun h => hfirst h.1
    have hnodup : (objs t.root).Nodup := by
      obtain ⟨l, hperm, hsubl⟩ := hsub
      exact hperm.nodup_iff.mp (hsubl.nodup (nodup_of_disjoint hos hdisj))
    obtain ⟨x, hx, hgone⟩ := hloses.exists_lost hnodup
    obtain ⟨out', hout', -, hform', -⟩ := objBTIns_spec hv (Nat.zero_le _) hform
      (fun hk => absurd hk (by decide)) ngb pool
    obtain rfl : out = out' := Option.some.inj (hout.symm.trans hout')
    exact hgone ((hall x hx x.base ⟨Nat.le_refl _, hos x (hsub.subset hx)⟩).mem hform')

/-- Objects of one address each. -/
def points (n : Nat) : List Memsection := (List.range n).map fun i => ⟨i, 10 * i, 10 * i⟩

theorem points_proper (n : Nat) : ∀ o ∈ points n, o.base ≤ o.end_ := by
  simp [points]

theorem points_disjoint (n : Nat) : (points n).Pairwise fun x y => ¬ Meets x y := by
  rw [points, List.pairwise_map]
  refine List.pairwise_lt_range.imp fun hlt => ?_
  rintro ⟨a, ⟨h₁, h₂⟩, h₃, h₄⟩
  dsimp only at h₁ h₂ h₃ h₄
  omega

/-- A full leaf, and no page to split it. -/
theorem full_leaf_kept : ∃ t pool out, insertRun 5 (points 5) emptyTree endlessPool = some (t, pool) ∧
    objBTIns 5 t ⟨5, 50, 50⟩ .null ⟨fun _ => none, 0⟩ = some out ∧
    Starves ⟨fun _ => none, 0⟩ out.pool ∧ AllFound (objs t.root) out.btree := by
  have hv : ValidOrder 5 := ⟨by decide, by decide⟩
  obtain ⟨t, pool, hrun, -, -⟩ := insertRun_subperm hv (points 5) endlessPool
  obtain ⟨out, hout, hiff⟩ := allFound_starved_iff hv (points 5) (points_proper 5)
    (points_disjoint 5) endlessPool hrun ⟨5, 50, 50⟩ .null ⟨fun _ => none, 0⟩
  have heval : (insertRun 5 (points 5) emptyTree endlessPool).any (fun p =>
      (objs p.1.root).all (fun x => x.base = x.end_ ∧
        objBTSearch (some p.1) x.base = some (.ok, some x)) &&
      (objBTIns 5 p.1 ⟨5, 50, 50⟩ .null ⟨fun _ => none, 0⟩).any fun out => out.pool.asked = 1) =
        true := by
    decide +kernel
  rw [hrun, Option.any_some, hout, Option.any_some] at heval
  simp only [Bool.and_eq_true, List.all_eq_true, decide_eq_true_eq] at heval
  obtain ⟨hpoints, hasked⟩ := heval
  have hstarves : Starves ⟨fun _ => none, 0⟩ out.pool := ⟨0, Nat.le_refl 0, by omega, rfl⟩
  refine ⟨t, pool, out, hrun, hout, hstarves, (hiff hstarves).mpr ⟨rfl, fun x hx k hk => ?_⟩⟩
  obtain ⟨hone, hfound⟩ := hpoints x hx
  obtain rfl : k = x.base := by
    have h₁ := hk.1
    have h₂ := hk.2
    omega
  exact hfound

/-- A full leaf of the deployed order, a page to split it, and none for the new root: the object at
    2000 is lost. -/
theorem upper_half_lost :
    (∀ o ∈ points 255, o.base ≤ o.end_) ∧ ((points 255).Pairwise fun x y => ¬ Meets x y) ∧
    ∃ t pool out, insertRun 255 (points 255) emptyTree endlessPool = some (t, pool) ∧
      objBTIns 255 t ⟨255, 2550, 2550⟩ .null ⟨fun i => if i = 1 then none else some 0, 0⟩ = some out ∧
      Starves ⟨fun i => if i = 1 then none else some 0, 0⟩ out.pool ∧
      ¬ AllFound (objs t.root) out.btree := by
  obtain ⟨t, pool, hrun, hform, -⟩ := insertRun_subperm deployed_order (points 255) endlessPool
  obtain ⟨out, hout, -⟩ := objBTIns_outcome (o := ⟨255, 2550, 2550⟩) deployed_order hform .null
    ⟨fun i => if i = 1 then none else some 0, 0⟩
  have heval : (insertRun 255 (points 255) emptyTree endlessPool).any (fun p =>
      (objs p.1.root).contains ⟨200, 2000, 2000⟩ &&
      (objBTIns 255 p.1 ⟨255, 2550, 2550⟩ .null ⟨fun i => if i = 1 then none else some 0, 0⟩).any
        fun out => out.pool.asked = 2 ∧
          objBTSearch (some out.btree) 2000 = some (.notFound, some ⟨127, 1270, 1270⟩)) = true := by
    decide +kernel
  rw [hrun, Option.any_some, hout, Option.any_some] at heval
  simp only [Bool.and_eq_true, List.contains_iff_mem, decide_eq_true_eq] at heval
  obtain ⟨hmem, hasked, hsearch⟩ := heval
  refine ⟨points_proper 255, points_disjoint 255, t, pool, out, hrun, hout,
    ⟨1, Nat.zero_le _, by omega, rfl⟩, fun hall => ?_⟩
  have hfound := hall ⟨200, 2000, 2000⟩ hmem 2000 ⟨Nat.le_refl _, Nat.le_refl _⟩
  rw [Found, hsearch] at hfound
  simp at hfound

end FreeVMS.BTree
