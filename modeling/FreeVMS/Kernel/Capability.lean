import FreeVMS.Alloc.L4
import FreeVMS.Kernel.LookupSpec
import FreeVMS.Lib.LinkChain
import FreeVMS.Thread.HashMemory

/-!
# Capabilities

`sec$check` looks up the protection domain of a thread and searches its capability lists for the
reference.  The lists hang on the head `clists` of the domain, which is read as a node itself;
each one is an array that ends at its length or at the first capability that is not valid.  The
index into the array is an `unsigned int`, the length a `vms$pointer`: a search that has gone
through 2^32 capabilities begins again.
-/

namespace FreeVMS.Kernel.Access

open LinkRing LinkChain Thread Alloc

/-- The head `clists` of a protection domain, or a `struct clist_node` at an address. -/
inductive Cell where
  | clists (pd : Nat)
  | node (p : Nat)
deriving DecidableEq, Repr

/-- `struct clist_info`, without the type. -/
structure ClistInfo where
  clist : Nat
  length : Nat
deriving DecidableEq, Repr

/-- The thread table, `owner` of a thread, the object table, the lists, what is read as the `data`
    of a cell, and `ref.obj` of the capabilities of an array. -/
structure Security where
  threads : Chained.HashMem
  owner : Nat → Nat
  objects : Table
  links : Links Cell
  data : Cell → ClistInfo
  obj : Nat → Nat → Nat

inductive Fault where
  /-- a fault of the thread table -/
  | threads (e : Chained.Fault)
  /-- a null pointer is followed -/
  | null
  /-- a call that does not return -/
  | diverge
deriving DecidableEq, Repr

/-- `IS_VALID_CAP`, of `ref.obj` -/
def isValidCap (obj : Nat) : Bool := obj != wordSize - 1

/-- `INVALID_CAP` -/
def invalidCap : Nat := wordSize - 1

/-- `master_ref`; what is shifted out comes back as zeros. -/
def masterRef (ref : Nat) : Nat := (ref >>> 3) <<< 3

/-- `(obj == ref) || (obj == master_ref)` -/
def matchesRef (ref obj : Nat) : Bool := obj == ref || obj == masterRef ref

/-- The inner loop of `sec$validate_access`: the capability that was found. -/
def scanClist (temp : Nat → Nat) (length ref : Nat) : Nat → Nat → Except Fault (Option Nat)
  | 0, _ => .error .diverge
  | fuel + 1, i =>
      if i < length ∧ isValidCap (temp i) = true then
        if matchesRef ref (temp i) then .ok (some (temp i))
        else scanClist temp length ref fuel ((i + 1) % 2 ^ 32)
      else .ok none

/-- The outer loop. -/
def validateLoop (next : Cell → Cell) (data : Cell → ClistInfo) (obj : Nat → Nat → Nat)
    (ref : Nat) (first : Cell) : Nat → Cell → Except Fault Nat
  | 0, _ => .error .diverge
  | fuel + 1, clists =>
      if next clists = first then .ok invalidCap
      else if (data clists).clist = 0 then .ok invalidCap
      else
        match scanClist (obj (data clists).clist) (data clists).length ref fuel 0 with
        | .error e => .error e
        | .ok (some cap) => .ok cap
        | .ok none => validateLoop next data obj ref first fuel (next clists)

/-- `sec$validate_access` -/
def validateAccess (fuel : Nat) (s : Security) (ref pd : Nat) : Except Fault Nat :=
  let first := s.links.next (.clists pd)
  validateLoop s.links.next s.data s.obj ref first fuel first

/-- `sys$thread_lookup` -/
def threadLookup (s : Security) (tid : Nat) : Except Fault Nat :=
  match Chained.hashLookup hashHash s.threads tid with
  | .ok thread => .ok thread
  | .error e => .error (.threads e)

/-- `sec$check` -/
def secCheck (fuel : Nat) (s : Security) (tid ref : Nat) : Except Fault Int := do
  let thread ← threadLookup s tid
  if thread = 0 then return -1
  let pd := s.owner thread
  match objtableLookup s.objects ref with
  | none => .error .diverge
  | some none => return -2
  | some (some _) =>
      let cap ← validateAccess fuel s ref pd
      return if isValidCap cap then 0 else -1

/-- `sizeof(cap_t)` -/
def capSize : Nat := 24

/-- `sys$clist_list_create_back`, where `sys$alloc` answers `p`. -/
def clistCreateBack (s : Security) (pd p : Nat) : Security :=
  { s with links := s.links.append (.clists pd) (.node p) }

/-- `sys$pd_add_clist`; the value that is returned is the address of `data`. -/
def pdAddClist (s : Security) (pd clist p : Nat) : Except Fault (Security × Nat) :=
  match objtableLookup s.objects clist with
  | none => .error .diverge
  | some memsection =>
      if p = 0 then .ok (s, 0)
      else
        match memsection with
        | none => .error .null
        | some m =>
            let info := ⟨clist, wordAdd (wordSub m.end_ m.base) 1 / capSize⟩
            .ok ({ clistCreateBack s pd p with data := Function.update s.data (.node p) info },
              p + 16)

/-! ### What access means -/

/-- A capability for the reference, with only valid ones before it. -/
def Hit (obj : Nat → Nat → Nat) (ref : Nat) (c : ClistInfo) (i : Nat) : Prop :=
  i < c.length ∧ (∀ j ≤ i, obj c.clist j ≠ wordSize - 1) ∧
    (obj c.clist i = ref ∨ obj c.clist i = ref - ref % 8)

/-- Some list has a capability for the reference, and no array before it is missing. -/
def Grants (obj : Nat → Nat → Nat) (ref : Nat) (clists : List ClistInfo) : Prop :=
  ∃ pre c post, clists = pre ++ c :: post ∧ (∀ d ∈ pre, d.clist ≠ 0) ∧ c.clist ≠ 0 ∧
    ∃ i, Hit obj ref c i

/-- 2^32 valid capabilities, none of them for the reference. -/
def Endless (obj : Nat → Nat → Nat) (ref : Nat) (c : ClistInfo) : Prop :=
  2 ^ 32 ≤ c.length ∧ ∀ j < 2 ^ 32, obj c.clist j ≠ wordSize - 1 ∧
    obj c.clist j ≠ ref ∧ obj c.clist j ≠ ref - ref % 8

/-- The search comes to such a list. -/
def Circles (obj : Nat → Nat → Nat) (ref : Nat) (clists : List ClistInfo) : Prop :=
  ∃ pre c post, clists = pre ++ c :: post ∧ (∀ d ∈ pre, d.clist ≠ 0 ∧ ∀ i, ¬ Hit obj ref d i) ∧
    c.clist ≠ 0 ∧ Endless obj ref c

/-- The capability lists of each domain, in their order. -/
structure Rings (s : Security) (v : Nat → List Cell) : Prop where
  hangs : ∀ pd, Hangs s.links (.clists pd) (v pd)
  nodes : ∀ pd, ∀ x ∈ v pd, ∃ p, x = .node p
  apart : ∀ pd pd' x, x ∈ v pd → x ∈ v pd' → pd = pd'

/-- The reference lies in a memsection. -/
def Lies (s : Security) (ref : Nat) : Prop := ∃ o ∈ s.objects.created, o.Contains ref

/-- A thread with capabilities for the reference, which lies in a memsection.  `thread` is what the
    thread table has for the thread, or 0. -/
def Allowed (s : Security) (v : Nat → List Cell) (thread ref : Nat) : Prop :=
  thread ≠ 0 ∧ Lies s ref ∧ Grants s.obj ref ((v (s.owner thread)).map s.data)

/-- `sec$check` returns, and returns 0 if and only if access is allowed. -/
def CheckRight (s : Security) (v : Nat → List Cell) (thread tid ref : Nat) : Prop :=
  ∃ n, ∀ fuel, n ≤ fuel →
    ∃ r, secCheck fuel s tid ref = .ok r ∧ (r = 0 ↔ Allowed s v thread ref)

/-- When it does: the object table tells whether the reference lies in a memsection, or it does not
    matter, and no array that the search comes to holds it up. -/
def CheckCondition (s : Security) (v : Nat → List Cell) (thread ref : Nat) : Prop :=
  thread ≠ 0 →
    match objtableLookup s.objects ref with
    | none => False
    | some none => ¬ Allowed s v thread ref
    | some (some _) =>
        ¬ Circles s.obj ref ((v (s.owner thread)).map s.data) ∧
          (Grants s.obj ref ((v (s.owner thread)).map s.data) → Lies s ref)

/-! ### One array -/

section

variable {obj : Nat → Nat → Nat} {ref i k fuel : Nat} {c : ClistInfo} {l : List ClistInfo}

theorem masterRef_eq : masterRef ref = ref - ref % 8 := by
  rw [masterRef, Nat.shiftRight_eq_div_pow, Nat.shiftLeft_eq]
  omega

theorem matchesRef_iff {o : Nat} : matchesRef ref o = true ↔ o = ref ∨ o = ref - ref % 8 := by
  rw [matchesRef, masterRef_eq]
  simp

theorem isValidCap_iff {o : Nat} : isValidCap o = true ↔ o ≠ wordSize - 1 := by
  simp [isValidCap]

/-- The loop goes on behind this capability. -/
def Passes (obj : Nat → Nat → Nat) (ref : Nat) (c : ClistInfo) (j : Nat) : Prop :=
  j < c.length ∧ obj c.clist j ≠ wordSize - 1 ∧ obj c.clist j ≠ ref ∧ obj c.clist j ≠ ref - ref % 8

theorem scanClist_passes (h : Passes obj ref c i) :
    scanClist (obj c.clist) c.length ref (fuel + 1) i =
      scanClist (obj c.clist) c.length ref fuel ((i + 1) % 2 ^ 32) := by
  obtain ⟨hlt, hvalid, href, hmaster⟩ := h
  have hno : ¬ matchesRef ref (obj c.clist i) = true := fun hm =>
    (matchesRef_iff.mp hm).elim href hmaster
  rw [scanClist, if_pos ⟨hlt, isValidCap_iff.mpr hvalid⟩, if_neg hno]

theorem scanClist_passes_all (hk : k < 2 ^ 32) (h : ∀ j < k, Passes obj ref c j) :
    scanClist (obj c.clist) c.length ref (fuel + k) 0 =
      scanClist (obj c.clist) c.length ref fuel k := by
  induction k generalizing fuel with
  | zero => rfl
  | succ k ih =>
    rw [show fuel + (k + 1) = fuel + 1 + k by omega,
      ih (Nat.lt_of_succ_lt hk) fun j hj => h j (Nat.lt_succ_of_lt hj),
      scanClist_passes (h k (Nat.lt_succ_self k)), Nat.mod_eq_of_lt hk]

theorem scanClist_endless (h : Endless obj ref c) (hi : i < 2 ^ 32) :
    scanClist (obj c.clist) c.length ref fuel i = .error .diverge := by
  induction fuel generalizing i with
  | zero => rfl
  | succ fuel ih =>
    rw [scanClist_passes ⟨lt_of_lt_of_le hi h.1, h.2 i hi⟩]
    exact ih (Nat.mod_lt _ (by decide))

theorem endless_of_passes (h : ∀ j < 2 ^ 32, Passes obj ref c j) : Endless obj ref c := by
  have hlast := (h (2 ^ 32 - 1) (by decide)).1
  exact ⟨by omega, fun j hj => (h j hj).2⟩

/-- Out of fuel, or more fuel changes nothing. -/
theorem scanClist_more (fuel i : Nat) :
    scanClist (obj c.clist) c.length ref fuel i = .error .diverge ∨
      ∀ n, scanClist (obj c.clist) c.length ref (fuel + n) i =
        scanClist (obj c.clist) c.length ref fuel i := by
  induction fuel generalizing i with
  | zero => exact .inl rfl
  | succ fuel ih =>
    by_cases hpass : Passes obj ref c i
    · rw [scanClist_passes hpass]
      refine (ih ((i + 1) % 2 ^ 32)).imp_right fun h n => ?_
      rw [Nat.add_right_comm, scanClist_passes hpass, h n]
    · refine .inr fun n => ?_
      rw [Nat.add_right_comm, scanClist, scanClist]
      by_cases hin : i < c.length ∧ isValidCap (obj c.clist i) = true
      · have hmatch : matchesRef ref (obj c.clist i) = true := by
          by_contra hne
          refine hpass ⟨hin.1, isValidCap_iff.mp hin.2, fun h => hne ?_, fun h => hne ?_⟩
          · exact matchesRef_iff.mpr (.inl h)
          · exact matchesRef_iff.mpr (.inr h)
        rw [if_pos hin, if_pos hin, if_pos hmatch, if_pos hmatch]
      · rw [if_neg hin, if_neg hin]

/-- What the inner loop does with an array. -/
inductive Scanned (obj : Nat → Nat → Nat) (ref : Nat) (c : ClistInfo) : Prop
  | circles (h : Endless obj ref c)
  | hit (i : Nat) (h : Hit obj ref c i) (hno : ¬ Endless obj ref c)
      (hscan : ∀ fuel, 2 ^ 32 ≤ fuel →
        scanClist (obj c.clist) c.length ref fuel 0 = .ok (some (obj c.clist i)))
  | miss (h : ∀ i, ¬ Hit obj ref c i) (hno : ¬ Endless obj ref c)
      (hscan : ∀ fuel, 2 ^ 32 ≤ fuel →
        scanClist (obj c.clist) c.length ref fuel 0 = .ok none)

/-- The first capability that the loop does not pass decides. -/
theorem scanned (obj : Nat → Nat → Nat) (ref : Nat) (c : ClistInfo) : Scanned obj ref c := by
  classical
  by_cases hall : ∀ j < 2 ^ 32, Passes obj ref c j
  · exact .circles (endless_of_passes hall)
  have hex : ∃ k, k < 2 ^ 32 ∧ ¬ Passes obj ref c k := by
    simpa using hall
  obtain ⟨hk, hstop⟩ := Nat.find_spec hex
  have hpass : ∀ j < Nat.find hex, Passes obj ref c j := by
    intro j hj
    by_contra hno
    exact Nat.find_min hex hj ⟨hj.trans hk, hno⟩
  generalize Nat.find hex = k at hk hstop hpass
  have hno : ¬ Endless obj ref c := fun hend =>
    hstop ⟨lt_of_lt_of_le hk hend.1, hend.2 k hk⟩
  have hrun : ∀ fuel, 2 ^ 32 ≤ fuel → ∃ f, scanClist (obj c.clist) c.length ref fuel 0 =
      scanClist (obj c.clist) c.length ref (f + 1) k := by
    intro fuel hfuel
    refine ⟨fuel - k - 1, ?_⟩
    rw [← scanClist_passes_all hk hpass]
    congr 1
    omega
  by_cases hin : k < c.length ∧ obj c.clist k ≠ wordSize - 1
  · have hmatch : obj c.clist k = ref ∨ obj c.clist k = ref - ref % 8 := by
      by_contra hne
      exact hstop ⟨hin.1, hin.2, fun h => hne (.inl h), fun h => hne (.inr h)⟩
    refine .hit k ⟨hin.1, fun j hj => ?_, hmatch⟩ hno fun fuel hfuel => ?_
    · rcases Nat.lt_or_eq_of_le hj with hlt | rfl
      · exact (hpass j hlt).2.1
      · exact hin.2
    · obtain ⟨f, hf⟩ := hrun fuel hfuel
      rw [hf, scanClist, if_pos ⟨hin.1, isValidCap_iff.mpr hin.2⟩,
        if_pos (matchesRef_iff.mpr hmatch)]
  · refine .miss (fun i hi => ?_) hno fun fuel hfuel => ?_
    · rcases Nat.lt_or_ge i k with hlt | hge
      · obtain ⟨-, -, href, hmaster⟩ := hpass i hlt
        exact hi.2.2.elim href hmaster
      · exact hin ⟨lt_of_le_of_lt hge hi.1, hi.2.1 k hge⟩
    · obtain ⟨f, hf⟩ := hrun fuel hfuel
      rw [hf, scanClist, if_neg fun h => hin ⟨h.1, isValidCap_iff.mp h.2⟩]

/-! ### All lists -/

theorem grants_cons (hc : c.clist ≠ 0) :
    Grants obj ref (c :: l) ↔ (∃ i, Hit obj ref c i) ∨ Grants obj ref l := by
  constructor
  · rintro ⟨pre, d, post, heq, hpre, hd, i, hi⟩
    cases pre with
    | nil =>
      obtain ⟨rfl, rfl⟩ := List.cons.inj heq
      exact .inl ⟨i, hi⟩
    | cons e pre =>
      obtain ⟨rfl, rfl⟩ := List.cons.inj heq
      exact .inr ⟨pre, d, post, rfl, fun x hx => hpre x (List.mem_cons_of_mem _ hx), hd, i, hi⟩
  · rintro (⟨i, hi⟩ | ⟨pre, d, post, rfl, hpre, hd, i, hi⟩)
    · exact ⟨[], c, l, rfl, fun _ hx => absurd hx List.not_mem_nil, hc, i, hi⟩
    · refine ⟨c :: pre, d, post, rfl, fun x hx => ?_, hd, i, hi⟩
      rcases List.mem_cons.mp hx with rfl | hx
      · exact hc
      · exact hpre x hx

theorem not_grants_null (hc : c.clist = 0) : ¬ Grants obj ref (c :: l) := by
  rintro ⟨pre, d, post, heq, hpre, hd, -⟩
  cases pre with
  | nil => exact hd ((List.cons.inj heq).1 ▸ hc)
  | cons e pre => exact hpre e List.mem_cons_self ((List.cons.inj heq).1 ▸ hc)

theorem not_grants_nil : ¬ Grants obj ref [] := by
  rintro ⟨pre, d, post, heq, -⟩
  simp at heq

theorem not_circles_nil : ¬ Circles obj ref [] := by
  rintro ⟨pre, d, post, heq, -⟩
  simp at heq

theorem not_circles_null (hc : c.clist = 0) : ¬ Circles obj ref (c :: l) := by
  rintro ⟨pre, d, post, heq, hpre, hd, -⟩
  cases pre with
  | nil => exact hd ((List.cons.inj heq).1 ▸ hc)
  | cons e pre => exact (hpre e List.mem_cons_self).1 ((List.cons.inj heq).1 ▸ hc)

/-- The search goes on behind a list without a hit. -/
theorem circles_cons (hc : c.clist ≠ 0) (hno : ¬ Endless obj ref c) :
    Circles obj ref (c :: l) ↔ (∀ i, ¬ Hit obj ref c i) ∧ Circles obj ref l := by
  constructor
  · rintro ⟨pre, d, post, heq, hpre, hd, hend⟩
    cases pre with
    | nil => exact absurd ((List.cons.inj heq).1 ▸ hend) hno
    | cons e pre =>
      obtain ⟨rfl, rfl⟩ := List.cons.inj heq
      exact ⟨(hpre c List.mem_cons_self).2, pre, d, post, rfl,
        fun x hx => hpre x (List.mem_cons_of_mem _ hx), hd, hend⟩
  · rintro ⟨hmiss, pre, d, post, rfl, hpre, hd, hend⟩
    refine ⟨c :: pre, d, post, rfl, fun x hx => ?_, hd, hend⟩
    rcases List.mem_cons.mp hx with rfl | hx
    · exact ⟨hc, hmiss⟩
    · exact hpre x hx

end

/-! ### The search -/

section

variable {next next' : Cell → Cell} {data data' : Cell → ClistInfo} {obj : Nat → Nat → Nat}
  {ref fuel cap : Nat} {first stop x : Cell} {l l' : List Cell}

theorem hit_valid {c : ClistInfo} {i : Nat} (h : Hit obj ref c i) :
    isValidCap (obj c.clist i) = true := isValidCap_iff.mpr (h.2.1 i le_rfl)

theorem invalidCap_not_valid : ¬ isValidCap invalidCap = true := by decide

theorem validateLoop_end (hstop : next stop = first) (fuel : Nat) :
    validateLoop next data obj ref first (fuel + 1) stop = .ok invalidCap := if_pos hstop

/-- Either the search runs round in an array, or it ends and says whether access is granted. -/
theorem validateLoop_spec (h : Chain next stop x l) (hstop : next stop = first)
    (hcells : ∀ y ∈ l, next y ≠ first) :
    (Circles obj ref (l.map data) ∧
      ∀ fuel, validateLoop next data obj ref first fuel x = .error .diverge) ∨
    (¬ Circles obj ref (l.map data) ∧ ∀ fuel, 2 ^ 32 + l.length < fuel →
      ∃ cap, validateLoop next data obj ref first fuel x = .ok cap ∧
        (isValidCap cap = true ↔ Grants obj ref (l.map data))) := by
  induction l generalizing x with
  | nil =>
    obtain rfl : x = stop := h
    refine .inr ⟨not_circles_nil, fun fuel hfuel => ⟨invalidCap, ?_, ?_⟩⟩
    · obtain ⟨fuel, rfl⟩ := Nat.exists_eq_succ_of_ne_zero (Nat.ne_zero_of_lt hfuel)
      exact validateLoop_end hstop fuel
    · exact iff_of_false invalidCap_not_valid not_grants_nil
  | cons y l ih =>
    obtain ⟨rfl, -, hrest⟩ := h
    have hx : next x ≠ first := hcells x List.mem_cons_self
    rw [List.map_cons]
    by_cases hnull : (data x).clist = 0
    · refine .inr ⟨not_circles_null hnull, fun fuel hfuel => ⟨invalidCap, ?_, ?_⟩⟩
      · obtain ⟨fuel, rfl⟩ := Nat.exists_eq_succ_of_ne_zero (Nat.ne_zero_of_lt hfuel)
        rw [validateLoop, if_neg hx, if_pos hnull]
      · exact iff_of_false invalidCap_not_valid (not_grants_null hnull)
    · have hround : ∀ fuel, validateLoop next data obj ref first (fuel + 1) x =
          match scanClist (obj (data x).clist) (data x).length ref fuel 0 with
          | .error e => .error e
          | .ok (some cap) => .ok cap
          | .ok none => validateLoop next data obj ref first fuel (next x) := fun fuel => by
        rw [validateLoop, if_neg hx, if_neg hnull]
      cases scanned obj ref (data x) with
      | circles hend =>
        refine .inl ⟨⟨[], data x, l.map data, rfl, fun _ hd => absurd hd List.not_mem_nil, hnull,
          hend⟩, fun fuel => ?_⟩
        cases fuel with
        | zero => rfl
        | succ fuel => rw [hround, scanClist_endless hend (by decide)]
      | hit i hhit hno hscan =>
        refine .inr ⟨fun hc => ((circles_cons hnull hno).mp hc).1 i hhit, fun fuel hfuel =>
          ⟨obj (data x).clist i, ?_, ?_⟩⟩
        · obtain ⟨fuel, rfl⟩ := Nat.exists_eq_succ_of_ne_zero (Nat.ne_zero_of_lt hfuel)
          rw [List.length_cons] at hfuel
          rw [hround, hscan fuel (by omega)]
        · exact iff_of_true (hit_valid hhit) ((grants_cons hnull).mpr (.inl ⟨i, hhit⟩))
      | miss hmiss hno hscan =>
        rcases ih hrest fun z hz => hcells z (List.mem_cons_of_mem _ hz) with
          ⟨hc, hdiv⟩ | ⟨hc, hret⟩
        · refine .inl ⟨(circles_cons hnull hno).mpr ⟨hmiss, hc⟩, fun fuel => ?_⟩
          cases fuel with
          | zero => rfl
          | succ fuel =>
            rw [hround]
            rcases @scanClist_more obj ref (data x) fuel 0 with hout | hmore
            · rw [hout]
            · rw [← hmore (2 ^ 32), hscan _ (Nat.le_add_left _ _)]
              exact hdiv fuel
        · refine .inr ⟨fun h => hc ((circles_cons hnull hno).mp h).2, fun fuel hfuel => ?_⟩
          obtain ⟨fuel, rfl⟩ := Nat.exists_eq_succ_of_ne_zero (Nat.ne_zero_of_lt hfuel)
          rw [List.length_cons] at hfuel
          obtain ⟨cap, hrun, hvalid⟩ := hret fuel (by omega)
          refine ⟨cap, ?_, ?_⟩
          · rw [hround, hscan fuel (by omega)]
            exact hrun
          · rw [hvalid, grants_cons hnull]
            exact (or_iff_right fun ⟨i, hi⟩ => hmiss i hi).symm

/-- Cells that come behind the others do not take access away. -/
theorem validateLoop_extend (h : Chain next stop x l) (h' : Chain next' stop x (l ++ l'))
    (hstop : next stop = first) (hcells : ∀ y ∈ l, next y ≠ first)
    (hcells' : ∀ y ∈ l, next' y ≠ first) (hdata : ∀ y ∈ l, data' y = data y)
    (hrun : validateLoop next data obj ref first fuel x = .ok cap)
    (hvalid : isValidCap cap = true) :
    validateLoop next' data' obj ref first fuel x = .ok cap := by
  induction l generalizing x fuel with
  | nil =>
    obtain rfl : x = stop := h
    cases fuel with
    | zero => cases hrun
    | succ fuel =>
      rw [validateLoop_end hstop] at hrun
      obtain rfl := Except.ok.inj hrun
      exact absurd hvalid invalidCap_not_valid
  | cons y l ih =>
    obtain ⟨rfl, -, hrest⟩ := h
    obtain ⟨-, -, hrest'⟩ := h'
    cases fuel with
    | zero => cases hrun
    | succ fuel =>
      rw [validateLoop, if_neg (hcells x List.mem_cons_self)] at hrun
      rw [validateLoop, if_neg (hcells' x List.mem_cons_self), hdata x List.mem_cons_self]
      by_cases hnull : (data x).clist = 0
      · rw [if_pos hnull] at hrun
        obtain rfl := Except.ok.inj hrun
        exact absurd hvalid invalidCap_not_valid
      rw [if_neg hnull] at hrun ⊢
      cases hscan : scanClist (obj (data x).clist) (data x).length ref fuel 0 with
      | error e =>
        rw [hscan] at hrun
        cases hrun
      | ok found =>
        cases found with
        | some c =>
          rw [hscan] at hrun
          exact hrun
        | none =>
          rw [hscan] at hrun
          have hmore : ∀ z ∈ l, z ∈ x :: l := fun z hz => List.mem_cons_of_mem _ hz
          cases l with
          | nil =>
            -- the search has come to the head without a capability
            have hend : next x = stop := hrest
            have hrun' : validateLoop next data obj ref first fuel (next x) = .ok cap := hrun
            rw [hend] at hrun'
            cases fuel with
            | zero => cases hrun'
            | succ fuel =>
              rw [validateLoop_end hstop] at hrun'
              obtain rfl := Except.ok.inj hrun'
              exact absurd hvalid invalidCap_not_valid
          | cons z l =>
            have hsame : next x = next' x := hrest.1.trans hrest'.1.symm
            rw [← hsame] at hrest' ⊢
            exact ih hrest hrest' (fun y hy => hcells y (hmore y hy))
              (fun y hy => hcells' y (hmore y hy)) (fun y hy => hdata y (hmore y hy)) hrun

end

/-! ### The lists of a domain -/

section

variable {s s' : Security} {v : Nat → List Cell} {threads : Nat → List Nat}
  {tid ref fuel pd p : Nat}

theorem Rings.chain (h : Rings s v) (pd : Nat) :
    Chain s.links.next (.clists pd) (s.links.next (.clists pd)) (v pd) :=
  chain_of_path (h.hangs pd).path (List.nodup_cons.mp (h.hangs pd).nodup).1

theorem Rings.next_ne (h : Rings s v) (pd : Nat) :
    ∀ y ∈ v pd, s.links.next y ≠ s.links.next (.clists pd) :=
  fun _ hy => ring_next_ne (h.hangs pd) hy

theorem Rings.clists_not_mem (h : Rings s v) (pd pd' : Nat) : Cell.clists pd ∉ v pd' := by
  intro hmem
  obtain ⟨p, hp⟩ := h.nodes pd' _ hmem
  cases hp

/-- A new node at the end of a list. -/
theorem Rings.createBack (h : Rings s v) (hfresh : ∀ pd', .node p ∉ v pd') :
    Rings (clistCreateBack s pd p) (Function.update v pd (v pd ++ [.node p])) := by
  have hnode : ∀ pd', Cell.node p ∉ Cell.clists pd' :: v pd' := by
    intro pd' hmem
    rcases List.mem_cons.mp hmem with heq | hmem
    · cases heq
    · exact hfresh pd' hmem
  refine ⟨fun pd' => ?_, fun pd' x hx => ?_, fun j k x hj hk => ?_⟩
  · by_cases hpd : pd' = pd
    · rw [hpd, Function.update_self]
      exact (h.hangs pd).append (hnode pd)
    · rw [Function.update_of_ne hpd]
      have hne : Cell.clists pd ≠ .clists pd' := fun heq => hpd (Cell.clists.inj heq).symm
      refine (h.hangs pd').append_other (fun hmem => ?_) (fun hmem => ?_) (hnode pd')
      · rcases List.mem_cons.mp hmem with heq | hmem
        · exact hne heq
        · exact h.clists_not_mem pd pd' hmem
      · -- the last node of one list is not on another
        rw [(h.hangs pd).last] at hmem
        rcases List.mem_cons.mp (lastOf_mem (Cell.clists pd) (v pd)) with hlast | hlast
        · rw [hlast] at hmem
          rcases List.mem_cons.mp hmem with heq | hmem
          · exact hne heq
          · exact h.clists_not_mem pd pd' hmem
        · rcases List.mem_cons.mp hmem with heq | hmem
          · exact h.clists_not_mem pd' pd (heq ▸ hlast)
          · exact hpd (h.apart _ _ _ hmem hlast)
  · by_cases hpd : pd' = pd
    · rw [hpd, Function.update_self] at hx
      rcases List.mem_append.mp hx with hx | hx
      · exact h.nodes pd x hx
      · exact ⟨p, List.mem_singleton.mp hx⟩
    · rw [Function.update_of_ne hpd] at hx
      exact h.nodes pd' x hx
  · have hback : ∀ k, x ∈ Function.update v pd (v pd ++ [.node p]) k →
        x ∈ v k ∨ (k = pd ∧ x = .node p) := by
      intro k hk
      by_cases hkpd : k = pd
      · rw [hkpd, Function.update_self] at hk
        rcases List.mem_append.mp hk with hk | hk
        · exact .inl (hkpd ▸ hk)
        · exact .inr ⟨hkpd, List.mem_singleton.mp hk⟩
      · rw [Function.update_of_ne hkpd] at hk
        exact .inl hk
    rcases hback j hj with hj | ⟨hj, hx⟩
    · rcases hback k hk with hk | ⟨hk, hx⟩
      · exact h.apart j k x hj hk
      · exact absurd (hx ▸ hj) (hfresh j)
    · rcases hback k hk with hk | ⟨hk, -⟩
      · exact absurd (hx ▸ hk) (hfresh k)
      · rw [hj, hk]

theorem validateAccess_spec (h : Rings s v) (ref pd : Nat) :
    (Circles s.obj ref ((v pd).map s.data) ∧
      ∀ fuel, validateAccess fuel s ref pd = .error .diverge) ∨
    (¬ Circles s.obj ref ((v pd).map s.data) ∧ ∀ fuel, 2 ^ 32 + (v pd).length < fuel →
      ∃ cap, validateAccess fuel s ref pd = .ok cap ∧
        (isValidCap cap = true ↔ Grants s.obj ref ((v pd).map s.data))) :=
  validateLoop_spec (h.chain pd) rfl (h.next_ne pd)

theorem threadLookup_spec (h : Chained.Holds hashHash s.threads threads) (tid : Nat) :
    threadLookup s tid = .ok ((threads tid).headD 0) := by
  rw [threadLookup, Chained.hashLookup_spec h]

/-! ### The check -/

theorem secCheck_eq (h : Chained.Holds hashHash s.threads threads) (fuel tid ref : Nat) :
    secCheck fuel s tid ref =
      if (threads tid).headD 0 = 0 then .ok (-1)
      else
        match objtableLookup s.objects ref with
        | none => .error .diverge
        | some none => .ok (-2)
        | some (some _) =>
            match validateAccess fuel s ref (s.owner ((threads tid).headD 0)) with
            | .error e => .error e
            | .ok cap => .ok (if isValidCap cap then 0 else -1) := by
  rw [secCheck, threadLookup_spec h]
  show (if (threads tid).headD 0 = 0 then (pure (-1) : Except Fault Int) else _) = _
  by_cases hthread : (threads tid).headD 0 = 0
  · rw [if_pos hthread, if_pos hthread]
    rfl
  · rw [if_neg hthread, if_neg hthread]
    cases objtableLookup s.objects ref with
    | none => rfl
    | some m =>
      cases m with
      | none => rfl
      | some m =>
        show (validateAccess fuel s ref _ >>= _) = _
        cases validateAccess fuel s ref (s.owner ((threads tid).headD 0)) with
        | error e => rfl
        | ok cap => rfl

/-- A search that runs round holds up the check. -/
theorem secCheck_circles (h : Chained.Holds hashHash s.threads threads) (hrings : Rings s v)
    (hthread : (threads tid).headD 0 ≠ 0) {m : BTree.Memsection}
    (hlookup : objtableLookup s.objects ref = some (some m))
    (hc : Circles s.obj ref ((v (s.owner ((threads tid).headD 0))).map s.data)) (fuel : Nat) :
    secCheck fuel s tid ref = .error .diverge := by
  rcases validateAccess_spec hrings ref (s.owner ((threads tid).headD 0)) with ⟨-, hdiv⟩ | ⟨hno, -⟩
  · rw [secCheck_eq h, if_neg hthread, hlookup]
    simp only [hdiv fuel]
  · exact absurd hc hno

/-- From some fuel on the check says whether `G`: it is right when that is what is allowed. -/
theorem checkRight_of_returns {thread n : Nat} {G : Prop}
    (hrun : ∀ fuel, n ≤ fuel → ∃ r, secCheck fuel s tid ref = .ok r ∧ (r = 0 ↔ G)) :
    CheckRight s v thread tid ref ↔ (G ↔ Allowed s v thread ref) := by
  constructor
  · rintro ⟨m, hm⟩
    obtain ⟨r, hr, hallowed⟩ := hm (max m n) (Nat.le_max_left m n)
    obtain ⟨r', hr', hgoal⟩ := hrun (max m n) (Nat.le_max_right m n)
    obtain rfl := Except.ok.inj (hr.symm.trans hr')
    exact hgoal.symm.trans hallowed
  · refine fun hiff => ⟨n, fun fuel hfuel => ?_⟩
    obtain ⟨r, hr, hgoal⟩ := hrun fuel hfuel
    exact ⟨r, hr, hgoal.trans hiff⟩

theorem not_checkRight {thread : Nat}
    (hrun : ∀ fuel, secCheck fuel s tid ref = .error .diverge) :
    ¬ CheckRight s v thread tid ref := by
  rintro ⟨n, hn⟩
  obtain ⟨r, hr, -⟩ := hn n le_rfl
  rw [hrun n] at hr
  cases hr

/-- A search that ends says whether access is granted. -/
theorem secCheck_returns (h : Chained.Holds hashHash s.threads threads) (hrings : Rings s v)
    (hthread : (threads tid).headD 0 ≠ 0) {m : BTree.Memsection}
    (hlookup : objtableLookup s.objects ref = some (some m))
    (hc : ¬ Circles s.obj ref ((v (s.owner ((threads tid).headD 0))).map s.data)) (fuel : Nat)
    (hfuel : 2 ^ 32 + (v (s.owner ((threads tid).headD 0))).length + 1 ≤ fuel) :
    ∃ r, secCheck fuel s tid ref = .ok r ∧
      (r = 0 ↔ Grants s.obj ref ((v (s.owner ((threads tid).headD 0))).map s.data)) := by
  rcases validateAccess_spec hrings ref (s.owner ((threads tid).headD 0)) with ⟨hyes, -⟩ | ⟨-, hret⟩
  · exact absurd hyes hc
  obtain ⟨cap, hcap, hvalid⟩ := hret fuel (Nat.lt_of_succ_le hfuel)
  refine ⟨if isValidCap cap then 0 else -1, ?_, ?_⟩
  · rw [secCheck_eq h, if_neg hthread, hlookup]
    simp only [hcap]
  · rw [← hvalid]
    by_cases hv : isValidCap cap = true
    · simp [hv]
    · simp [hv]

theorem checkRight_iff (h : Chained.Holds hashHash s.threads threads) (hrings : Rings s v)
    (tid ref : Nat) :
    CheckRight s v ((threads tid).headD 0) tid ref ↔
      CheckCondition s v ((threads tid).headD 0) ref := by
  by_cases hthread : (threads tid).headD 0 = 0
  · have hrun : ∀ fuel, 0 ≤ fuel → ∃ r, secCheck fuel s tid ref = .ok r ∧ (r = 0 ↔ False) := by
      refine fun fuel _ => ⟨-1, ?_, by decide⟩
      rw [secCheck_eq h, if_pos hthread]
    rw [checkRight_of_returns hrun]
    refine iff_of_true ?_ fun hne => absurd hthread hne
    exact iff_of_false id fun hallowed => hallowed.1 hthread
  rw [CheckCondition, imp_iff_right hthread]
  cases hlookup : objtableLookup s.objects ref with
  | none =>
    refine iff_of_false (not_checkRight fun fuel => ?_) id
    rw [secCheck_eq h, if_neg hthread, hlookup]
  | some m =>
    cases m with
    | none =>
      have hrun : ∀ fuel, 0 ≤ fuel → ∃ r, secCheck fuel s tid ref = .ok r ∧ (r = 0 ↔ False) := by
        refine fun fuel _ => ⟨-2, ?_, by decide⟩
        rw [secCheck_eq h, if_neg hthread, hlookup]
      rw [checkRight_of_returns hrun]
      exact iff_of_eq (false_iff _)
    | some m =>
      by_cases hc : Circles s.obj ref ((v (s.owner ((threads tid).headD 0))).map s.data)
      · exact iff_of_false (not_checkRight (secCheck_circles h hrings hthread hlookup hc))
          fun hcond => hcond.1 hc
      · -- the search ends; what it says counts if the reference lies in a memsection
        rw [checkRight_of_returns (secCheck_returns h hrings hthread hlookup hc)]
        constructor
        · exact fun hiff => ⟨hc, fun hg => (hiff.mp hg).2.1⟩
        · rintro ⟨-, hlies⟩
          exact ⟨fun hg => ⟨hthread, hlies hg, hg⟩, fun hallowed => hallowed.2.2⟩

/-- The search after a list has been added at the end of one of the rings. -/
theorem validateAccess_createBack (hrings : Rings s v) (hfresh : ∀ pd', .node p ∉ v pd')
    (hlinks : s'.links = (clistCreateBack s pd p).links) (hobj : s'.obj = s.obj)
    (hdata : ∀ x, x ≠ .node p → s'.data x = s.data x) {pd' cap : Nat}
    (hrun : validateAccess fuel s ref pd' = .ok cap) (hvalid : isValidCap cap = true) :
    validateAccess fuel s' ref pd' = .ok cap := by
  have hrings' : Rings (clistCreateBack s pd p) _ := hrings.createBack hfresh
  obtain ⟨more, hmore⟩ : ∃ more,
      Function.update v pd (v pd ++ [.node p]) pd' = v pd' ++ more := by
    by_cases hpd : pd' = pd
    · exact ⟨[.node p], by rw [hpd, Function.update_self]⟩
    · exact ⟨[], by rw [Function.update_of_ne hpd, List.append_nil]⟩
  have hchain' : Chain s'.links.next (.clists pd') (s'.links.next (.clists pd')) (v pd' ++ more) := by
    rw [hlinks, ← hmore]
    exact hrings'.chain pd'
  have hnext' : ∀ y ∈ v pd', s'.links.next y ≠ s'.links.next (.clists pd') := by
    intro y hy
    rw [hlinks]
    refine hrings'.next_ne pd' y ?_
    rw [hmore]
    exact List.mem_append_left _ hy
  have hdata' : ∀ y ∈ v pd', s'.data y = s.data y := fun y hy => hdata y fun heq =>
    hfresh pd' (heq ▸ hy)
  cases hcells : v pd' with
  | nil =>
    -- nothing is found on an empty list
    have hchain := hrings.chain pd'
    rw [hcells] at hchain
    have hself : s.links.next (.clists pd') = .clists pd' := hchain
    rw [validateAccess, hself] at hrun
    cases fuel with
    | zero => cases hrun
    | succ fuel =>
      rw [validateLoop_end hself] at hrun
      obtain rfl := Except.ok.inj hrun
      exact absurd hvalid invalidCap_not_valid
  | cons f rest =>
    have hchain := hrings.chain pd'
    have hfirst : s'.links.next (.clists pd') = s.links.next (.clists pd') := by
      rw [hcells] at hchain hchain'
      exact hchain'.1.trans hchain.1.symm
    rw [hfirst] at hchain' hnext'
    rw [validateAccess, hobj, hfirst]
    exact validateLoop_extend hchain hchain' rfl (hrings.next_ne pd') hnext' hdata' hrun hvalid

/-- What a `sys$pd_add_clist` that returns has changed. -/
theorem pdAddClist_ok {clist r : Nat} (hadd : pdAddClist s pd clist p = .ok (s', r)) :
    s' = s ∨ ∃ info, s' =
      { clistCreateBack s pd p with data := Function.update s.data (.node p) info } := by
  rw [pdAddClist] at hadd
  cases hlook : objtableLookup s.objects clist with
  | none =>
    rw [hlook] at hadd
    cases hadd
  | some memsection =>
    simp only [hlook] at hadd
    by_cases hp : p = 0
    · rw [if_pos hp] at hadd
      exact .inl (congrArg Prod.fst (Except.ok.inj hadd)).symm
    · rw [if_neg hp] at hadd
      cases memsection with
      | none => cases hadd
      | some m => exact .inr ⟨_, (congrArg Prod.fst (Except.ok.inj hadd)).symm⟩

theorem secCheck_granted_iff (h : Chained.Holds hashHash s.threads threads) :
    secCheck fuel s tid ref = .ok 0 ↔
      (threads tid).headD 0 ≠ 0 ∧ (∃ m, objtableLookup s.objects ref = some (some m)) ∧
        ∃ cap, validateAccess fuel s ref (s.owner ((threads tid).headD 0)) = .ok cap ∧
          isValidCap cap = true := by
  rw [secCheck_eq h]
  by_cases hthread : (threads tid).headD 0 = 0
  · rw [if_pos hthread]
    exact iff_of_false (fun heq => by cases heq) fun hc => hc.1 hthread
  rw [if_neg hthread, and_iff_right hthread]
  cases hlookup : objtableLookup s.objects ref with
  | none => exact iff_of_false (fun heq => by cases heq) fun ⟨⟨m, hm⟩, _⟩ => by cases hm
  | some m =>
    cases m with
    | none => exact iff_of_false (fun heq => by cases heq) fun ⟨⟨m, hm⟩, _⟩ => by cases hm
    | some m =>
      rw [and_iff_right ⟨m, rfl⟩]
      cases hcap : validateAccess fuel s ref (s.owner ((threads tid).headD 0)) with
      | error e => exact iff_of_false (fun heq => by cases heq) fun ⟨_, hc, _⟩ => by cases hc
      | ok cap =>
        by_cases hv : isValidCap cap = true
        · simp [hv]
        · simp [hv]

/-- `sys$pd_add_clist` takes no access away. -/
theorem pdAddClist_keeps (h : Chained.Holds hashHash s.threads threads) (hrings : Rings s v)
    (hfresh : ∀ pd', .node p ∉ v pd') {clist r : Nat}
    (hadd : pdAddClist s pd clist p = .ok (s', r)) (hrun : secCheck fuel s tid ref = .ok 0) :
    secCheck fuel s' tid ref = .ok 0 := by
  rcases pdAddClist_ok hadd with rfl | ⟨info, heq⟩
  · exact hrun
  · have h' : Chained.Holds hashHash s'.threads threads := by
      rw [heq]
      exact h
    have hdata : ∀ x, x ≠ .node p → s'.data x = s.data x := fun x hx => by
      rw [heq]
      exact Function.update_of_ne hx _ s.data
    obtain ⟨hthread, hlookup, cap, hcap, hvalid⟩ := (secCheck_granted_iff h).mp hrun
    have hlinks : s'.links = (clistCreateBack s pd p).links := by rw [heq]
    have hobj : s'.obj = s.obj := by rw [heq]; rfl
    have hsame := validateAccess_createBack hrings hfresh hlinks hobj hdata hcap hvalid
    refine (secCheck_granted_iff h').mpr ⟨hthread, ?_, cap, ?_, hvalid⟩
    · rw [heq]
      exact hlookup
    · rw [show s'.owner = s.owner by rw [heq]; rfl]
      exact hsame

/-! ### The object table -/

/-- In a table that has been built by creations, the lookup tells whether an address lies in a
    memsection, but for the address of the list head that it takes for one. -/
theorem lookup_tells {order q : Nat} {t : Table} {w : List Ptr} (h : TInv order q t w) (a : Nat) :
    ∃ m, objtableLookup t a = some m ∧
      (m ≠ none ↔ (∃ o ∈ t.created, o.Contains a) ∨ (t.initialized = true ∧ a = q + 16)) := by
  have hcorrect := h.lookup_correct_iff a
  by_cases hright : LookupCorrect t a
  · have hgood := hcorrect.mp hright
    cases hlookup : objtableLookup t a with
    | none =>
      rw [LookupCorrect, hlookup] at hright
      exact absurd hright id
    | some m =>
      rw [LookupCorrect, hlookup] at hright
      refine ⟨m, rfl, ?_⟩
      cases m with
      | none =>
        refine iff_of_false (fun hne => hne rfl) ?_
        rintro (hin | ⟨hinit, ha⟩)
        · exact hright hin
        · refine hgood ⟨hinit, ha, fun o ho hc => hright ⟨o, ?_, hc⟩⟩
          exact (h.contents o).mpr (.inl ho)
      | some o => exact iff_of_true (Option.some_ne_none o) (.inl ⟨o, hright⟩)
  · obtain ⟨hinit, ha, htree⟩ := Classical.not_not.mp fun hno => hright (hcorrect.mpr hno)
    have hnone : ¬ ∃ o ∈ treeObjs t, o.Contains a := by
      rintro ⟨o, ho, hc⟩
      exact htree o ho hc
    have hlookup := lookup_of_list h hnone
    refine ⟨_, hlookup, iff_of_true (fun hmiss => hright ?_) (.inr ⟨hinit, ha⟩)⟩
    rw [hmiss] at hlookup
    rw [LookupCorrect, hlookup]
    rintro ⟨o, ho, hc⟩
    rcases (h.contents o).mp ho with hin | ⟨n, hn, rfl⟩
    · exact htree o hin hc
    · exact firstMatch_none hmiss _ hn hc

/-- The condition with such a table. -/
theorem checkCondition_iff {order q : Nat} {w : List Ptr} (h : TInv order q s.objects w)
    (v : Nat → List Cell) (thread ref : Nat) :
    CheckCondition s v thread ref ↔
      (thread ≠ 0 → Lies s ref ∨ (s.objects.initialized = true ∧ ref = q + 16) →
        ¬ Circles s.obj ref ((v (s.owner thread)).map s.data) ∧
          (Grants s.obj ref ((v (s.owner thread)).map s.data) → Lies s ref)) := by
  obtain ⟨m, hm, hiff⟩ := lookup_tells h ref
  refine imp_congr_right fun hthread => ?_
  rw [hm]
  cases m with
  | none =>
    have hno := fun hin => hiff.mpr hin rfl
    exact iff_of_true (fun hallowed => hno (.inl hallowed.2.1)) fun hin => absurd hin hno
  | some m => exact (imp_iff_right (hiff.mp (Option.some_ne_none m))).symm

end

/-- **When the check is right.**  `sec$check` returns, with 0 if and only if the thread exists, the
    reference lies in a memsection and a capability of the domain is for it, just when the search
    comes to no array of 2^32 valid capabilities for other references, and the object table does not
    take the reference for one in a memsection.  A list that is added at the end takes no access
    away. -/
theorem sec_check_right_iff {s : Security} {v : Nat → List Cell} {threads : Nat → List Nat}
    (hthreads : Chained.Holds hashHash s.threads threads) (hrings : Rings s v) :
    (∀ tid ref, CheckRight s v ((threads tid).headD 0) tid ref ↔
      CheckCondition s v ((threads tid).headD 0) ref) ∧
    ∀ fuel tid ref pd clist p s' r, (∀ pd', .node p ∉ v pd') →
      pdAddClist s pd clist p = .ok (s', r) → secCheck fuel s tid ref = .ok 0 →
        secCheck fuel s' tid ref = .ok 0 :=
  ⟨checkRight_iff hthreads hrings, fun _ _ _ _ _ _ _ _ hfresh hadd hrun =>
    pdAddClist_keeps hthreads hrings hfresh hadd hrun⟩

/-- The thread 5, at the address 64. -/
def oneThread : Chained.HashMem :=
  ⟨1, [16], Function.update (fun _ => ⟨⟨0, 0⟩, 0⟩) 16 ⟨⟨5, 64⟩, 0⟩, [16]⟩

theorem oneThread_holds :
    Chained.Holds hashHash oneThread (Function.update (fun _ => []) 5 [64]) := by
  have hindex : ∀ key, oneThread.index hashHash key = 0 := fun key => Nat.and_zero _
  refine ⟨Function.update (fun _ => []) 0 [16], ⟨by decide, rfl, ?_, ?_, ?_, ?_⟩, fun key => ?_⟩
  · intro i p hp
    obtain ⟨hi, rfl⟩ := List.getElem?_eq_some_iff.mp hp
    obtain rfl : i = 0 := Nat.lt_one_iff.mp hi
    exact ⟨rfl, by decide, rfl⟩
  · intro i q hq
    by_cases hi : i = 0
    · rw [hi, Function.update_self] at hq
      exact hq
    · rw [Function.update_of_ne hi] at hq
      exact absurd hq List.not_mem_nil
  · intro i
    by_cases hi : i = 0
    · rw [hi, Function.update_self]
      exact List.nodup_singleton 16
    · rw [Function.update_of_ne hi]
      exact List.nodup_nil
  · intro i j q hi hj
    by_cases hi0 : i = 0
    · by_cases hj0 : j = 0
      · rw [hi0, hj0]
      · rw [Function.update_of_ne hj0] at hj
        exact absurd hj List.not_mem_nil
    · rw [Function.update_of_ne hi0] at hi
      exact absurd hi List.not_mem_nil
  · rw [hindex, Function.update_self]
    by_cases hkey : key = 5
    · rw [hkey, Function.update_self]
      rfl
    · rw [Function.update_of_ne hkey]
      exact valuesOf_cons_other (Ne.symm hkey)

/-- One memsection, and domains without capability lists. -/
def noLists (m : BTree.Memsection) (obj : Nat → Nat → Nat) : Security where
  threads := oneThread
  owner := fun _ => 3
  objects := (Table.init BTree.endlessPool).append .internal m
  links := ⟨fun c => c, fun c => c⟩
  data := fun _ => ⟨0, 0⟩
  obj := obj

/-- The domain 3 has got a list. -/
def oneList (m : BTree.Memsection) (obj : Nat → Nat → Nat) : Security :=
  { clistCreateBack (noLists m obj) 3 128 with
    data := Function.update (fun _ => ⟨0, 0⟩) (.node 128)
      ⟨m.base, wordAdd (wordSub m.end_ m.base) 1 / capSize⟩ }

example : pdAddClist (noLists ⟨0x100, 0x1000, 0x102f⟩ fun _ i => i) 3 0x1000 128 =
    .ok (oneList ⟨0x100, 0x1000, 0x102f⟩ fun _ i => i, 144) := rfl

def oneCell : Nat → List Cell := Function.update (fun _ => []) 3 [.node 128]

theorem oneList_rings (m : BTree.Memsection) (obj : Nat → Nat → Nat) :
    Rings (oneList m obj) oneCell := by
  have hempty : Rings (noLists m obj) fun _ => [] :=
    ⟨fun _ => ⟨rfl, List.nodup_singleton _, rfl⟩, fun _ _ hx => absurd hx List.not_mem_nil,
      fun _ _ _ hx => absurd hx List.not_mem_nil⟩
  have hback : Rings (clistCreateBack (noLists m obj) 3 128) _ :=
    hempty.createBack fun _ => List.not_mem_nil
  obtain ⟨hhangs, hnodes, hapart⟩ := hback
  exact ⟨hhangs, hnodes, hapart⟩

/-- Two capabilities, the second one for the reference without its low bits. -/
theorem oneList_right_iff :
    (secCheck 4 (oneList ⟨0x100, 0x1000, 0x102f⟩ fun _ i => 0x1000 + 0x20 * i) 5 0x1025 = .ok 0) ∧
    (∀ tid ref, CheckRight (oneList ⟨0x100, 0x1000, 0x102f⟩ fun _ i => 0x1000 + 0x20 * i) oneCell
        ((Function.update (fun _ => []) 5 [64] tid).headD 0) tid ref ↔
      CheckCondition (oneList ⟨0x100, 0x1000, 0x102f⟩ fun _ i => 0x1000 + 0x20 * i) oneCell
        ((Function.update (fun _ => []) 5 [64] tid).headD 0) ref) ∧
    ∀ fuel tid ref pd clist p s' r, (∀ pd', .node p ∉ oneCell pd') →
      pdAddClist (oneList ⟨0x100, 0x1000, 0x102f⟩ fun _ i => 0x1000 + 0x20 * i) pd clist p =
        .ok (s', r) →
      secCheck fuel (oneList ⟨0x100, 0x1000, 0x102f⟩ fun _ i => 0x1000 + 0x20 * i) tid ref = .ok 0 →
        secCheck fuel s' tid ref = .ok 0 :=
  ⟨rfl, sec_check_right_iff oneThread_holds (oneList_rings _ _)⟩

/-- A memsection of 2^32 + 1 capabilities, of which only the last one is for the reference: the
    check does not return. -/
theorem long_clist_not_searched :
    ¬ ∀ s v threads, Chained.Holds hashHash s.threads threads → Rings s v →
      ∀ tid ref, CheckRight s v ((threads tid).headD 0) tid ref := by
  intro h
  let m : BTree.Memsection := ⟨0x100, 0x1000, 0x1000 + 24 * (2 ^ 32 + 1) - 1⟩
  let obj : Nat → Nat → Nat := fun _ i => if i = 2 ^ 32 then 0x2000 else 0x5000
  obtain ⟨n, hn⟩ := h (oneList m obj) oneCell _ oneThread_holds (oneList_rings m obj) 5 0x2000
  obtain ⟨r, hr, -⟩ := hn n le_rfl
  have hend : Endless obj 0x2000 ⟨0x1000, 2 ^ 32 + 1⟩ := by
    refine ⟨by decide, fun j hj => ?_⟩
    have hobj : obj 0x1000 j = 0x5000 := if_neg (Nat.ne_of_lt hj)
    show obj 0x1000 j ≠ _ ∧ obj 0x1000 j ≠ _ ∧ obj 0x1000 j ≠ _
    rw [hobj]
    decide
  have hcircles : Circles obj 0x2000 ((oneCell 3).map (oneList m obj).data) :=
    ⟨[], ⟨0x1000, 2 ^ 32 + 1⟩, [], by decide +kernel, fun _ hd => absurd hd List.not_mem_nil,
      by decide, hend⟩
  rw [secCheck_circles oneThread_holds (oneList_rings m obj) (by decide)
    (show objtableLookup (oneList m obj).objects 0x2000 = some (some m) from rfl) hcircles] at hr
  cases hr

end FreeVMS.Kernel.Access
