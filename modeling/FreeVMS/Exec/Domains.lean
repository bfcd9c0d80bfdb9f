import FreeVMS.Exec.ThreadTable
import FreeVMS.Kernel.LookupSpec

/-!
# What the calls on domains and threads keep

A thread that is filed is on the list of its owner and has a slot of the UTCB area of its owner; the
areas are memsections of the object table, and no two domains have the same one.  Each domain is one
of `Thread/Utcb.lean`, and each creation and deletion is one there.
-/

namespace FreeVMS.Exec

open Alloc BTree Kernel Kernel.Access Thread

/-- The part of a domain that threads are created in. -/
def System.view (s : System) (d : Nat) : Thread.Pd :=
  ⟨(s.pd d).state, (s.pd d).threads.map fun t => ⟨t, s.utcb t⟩, (s.pd d).localThreadno⟩

/-- The slots of a domain lie in its memsection. -/
structure HasArea (k : Machine) (u : UtcbArea) (o : Memsection) (d : Domain) : Prop where
  a : u.a = k.a
  m : u.m = k.m
  base : u.base = o.base
  utcbBase : d.utcbBase = o.base
  inside : o.base + u.size * u.maxThreads ≤ o.end_ + 1

/-- `freevms_pd`, or a domain that has been made. -/
def System.Known (s : System) (d : Nat) : Prop := d = 0 ∨ ∃ p, d ∈ (s.pd p).pds

/-- The invariant of the state, for the identifiers in use. -/
structure Well (k : Machine) (lo idBits : Nat) (s : System) (live : List (Nat × Nat)) : Prop where
  filed : Filed lo idBits s live
  ids : ∀ x ∈ live, s.id x.2 = x.1
  eas : ∀ x ∈ live, s.eas x.2 = 0
  listed : ∀ d t, t ∈ (s.pd d).threads ↔ s.security.owner t = d ∧ (s.id t, t) ∈ live
  awake : ∀ d, (s.pd d).state ≠ .suspended
  empty : ∀ d, (s.pd d).utcbMemsection = none → (s.pd d).threads = []
  known : ∀ d, (s.pd d).utcbMemsection ≠ none → s.Known d
  parents : ∀ d, (s.pd d).pds ≠ [] → s.Known d
  area : ∀ d o, (s.pd d).utcbMemsection = some o → o ∈ s.security.objects.created ∧
    ∃ u, HasArea k u o (s.pd d) ∧ PdInv u (s.view d)
  own : ∀ d d' o, (s.pd d).utcbMemsection = some o → (s.pd d').utcbMemsection = some o → d = d'
  table : ∃ v, TInv k.order k.list s.security.objects v
  apart : ∀ x ∈ s.security.objects.created, ∀ y ∈ s.security.objects.created, x ≠ y → ¬ Meets x y

/-- The kernel refuses a request for want of memory only. -/
def L4Answers.Calm (l4 : L4Answers) : Prop :=
  l4.control = true ∧ l4.space = true ∧ l4.activate ≠ .error

/-- The capabilities are the same. -/
structure SameCaps (s s' : System) : Prop where
  links : s'.security.links = s.security.links
  data : s'.security.data = s.security.data
  obj : s'.security.obj = s.security.obj

/-- Nothing that is in use is different: the free list, the domains, the threads on their lists, what
    is found in the table of threads and in the object table, and the capabilities. -/
structure Untouched (s s' : System) : Prop where
  threadList : s'.threadList = s.threadList
  pd : s'.pd = s.pd
  found : ∀ tid, threadLookup s'.security tid = threadLookup s.security tid
  threads : ∀ d, ∀ t ∈ (s.pd d).threads, s'.id t = s.id t ∧ s'.utcb t = s.utcb t ∧
    s'.eas t = s.eas t ∧ s'.security.owner t = s.security.owner t
  objects : s'.security.objects = s.security.objects
  caps : SameCaps s s'

section

variable {k : Machine} {lo idBits self thread entry utcb d id n : Nat} {s s' : System}
  {live : List (Nat × Nat)} {l4 : L4Answers} {f g : Domain → Domain}

theorem setPd_self : (s.setPd d f).pd d = f (s.pd d) := Function.update_self ..

theorem setPd_of_ne {d' : Nat} (h : d' ≠ d) : (s.setPd d f).pd d' = s.pd d' :=
  Function.update_of_ne h ..

theorem setPd_setPd : (s.setPd d f).setPd d g = s.setPd d fun x => g (f x) := by
  simp only [System.setPd, Function.update_self, Function.update_idem]

theorem setPd_eq_self (h : f (s.pd d) = s.pd d) : s.setPd d f = s := by
  rw [System.setPd, h, Function.update_eq_self]

/-! ### Setting a thread up -/

theorem threadFree_setId : threadFree n (s.setId thread id) =
    (threadFree n s).map fun s => s.setId thread id := by
  rw [threadFree, threadFree, show (s.setId thread id).security = s.security from rfl]
  cases Chained.hashRemove hashHash s.security.threads n <;> rfl

theorem threadActivate_calm (hstate : (s.pd (s.security.owner thread)).state ≠ .suspended)
    (hl4 : l4.Calm) : threadActivate thread l4 s =
      if l4.activate = .done then
        .ok (0, s.setPd (s.security.owner thread) fun d => { d with state := .active })
      else (threadFree (s.id thread) s).map fun s => (1, s) := by
  obtain ⟨hcontrol, hspace, herror⟩ := hl4
  rw [threadActivate, if_neg (by simp [hcontrol]), if_neg (by simp [hspace]), if_neg hstate]
  cases hact : l4.activate with
  | done => rfl
  | noMem => rfl
  | error => exact absurd hact herror

/-- **Setup.**  A thread of a domain that is not suspended gets an identifier, which is taken back
    when the kernel has run out of memory. -/
theorem threadSetup_spec (h : Filed lo idBits s live) (hlo : 0 < lo) (hroom : Room lo idBits live)
    (hthread : thread ≠ 0) (hentry : entry ≠ 0) (hfresh : entry ∉ s.security.threads.live)
    (hstate : (s.pd (s.security.owner thread)).state ≠ .suspended) (hl4 : l4.Calm) :
    ∃ id table, (∀ x ∈ live, x.1 ≠ id) ∧
      ((l4.activate = .done ∧
        Filed lo idBits (s.withThreads table (rflAlloc s.threadList).2) ((id, thread) :: live) ∧
        threadSetup thread entry l4 s =
          .ok (0, ((((s.setEas thread 0).withThreads table (rflAlloc s.threadList).2).setId thread id).setPd
            (s.security.owner thread) fun d => { d with state := .active }))) ∨
      (l4.activate ≠ .done ∧ Filed lo idBits (s.withThreads table s.threadList) live ∧
        threadSetup thread entry l4 s =
          .ok (1, ((s.setEas thread 0).withThreads table s.threadList).setId thread id))) := by
  have hstart : Filed lo idBits (s.setEas thread 0) live := h.congr rfl rfl
  obtain ⟨id, table, halloc, hnumber, hnew, hfiled⟩ := hstart.alloc hroom hthread hentry hfresh
  have hsetup : threadSetup thread entry l4 s = threadActivate thread l4
      (((s.setEas thread 0).withThreads table (rflAlloc s.threadList).2).setId thread id) := by
    rw [threadSetup, if_neg hstate, halloc]
    rfl
  have hactivate := threadActivate_calm
    (s := ((s.setEas thread 0).withThreads table (rflAlloc s.threadList).2).setId thread id) hstate hl4
  rw [hactivate] at hsetup
  by_cases hact : l4.activate = .done
  · rw [if_pos hact] at hsetup
    exact ⟨id, table, hnew, .inl ⟨hact, hfiled.congr rfl rfl, hsetup⟩⟩
  · obtain ⟨table', hfree, hfiled'⟩ := hstart.alloc_free hlo hroom hnumber hnew hfiled
    have hid : (((s.setEas thread 0).withThreads table (rflAlloc s.threadList).2).setId thread id).id
        thread = id := Function.update_self ..
    rw [show (s.setEas thread 0).threadList = s.threadList from rfl] at hfree
    rw [if_neg hact, hid, threadFree_setId, hfree] at hsetup
    exact ⟨id, table', hnew, .inr ⟨hact, hfiled'.congr rfl rfl, hsetup⟩⟩

/-! ### Keeping the invariant -/

/-- The threads in use are those on the lists. -/
theorem Well.live_listed (h : Well k lo idBits s live) {x : Nat × Nat} (hx : x ∈ live) :
    x.2 ∈ (s.pd (s.security.owner x.2)).threads := by
  refine (h.listed _ _).mpr ⟨rfl, ?_⟩
  rw [h.ids x hx]
  exact hx

theorem Well.not_live (h : Well k lo idBits s live) (hnew : ∀ d, thread ∉ (s.pd d).threads)
    {x : Nat × Nat} (hx : x ∈ live) : x.2 ≠ thread := by
  intro heq
  exact hnew _ (heq ▸ h.live_listed hx)

theorem view_congr (hpd : s'.pd d = s.pd d) (hutcb : ∀ t ∈ (s.pd d).threads, s'.utcb t = s.utcb t) :
    s'.view d = s.view d := by
  have hthreads : ((s.pd d).threads.map fun t => (⟨t, s'.utcb t⟩ : UserThread)) =
      (s.pd d).threads.map fun t => ⟨t, s.utcb t⟩ :=
    List.map_congr_left fun t ht => by rw [hutcb t ht]
  rw [System.view, System.view, hpd, hthreads]

/-- The fields of the other threads are the same. -/
structure Beside (thread : Nat) (s s' : System) : Prop where
  id : ∀ t, t ≠ thread → s'.id t = s.id t
  utcb : ∀ t, t ≠ thread → s'.utcb t = s.utcb t
  eas : ∀ t, t ≠ thread → s'.eas t = s.eas t
  owner : ∀ t, t ≠ thread → s'.security.owner t = s.security.owner t
  objects : s'.security.objects = s.security.objects

/-- A thread that is not in use does not matter. -/
theorem Well.beside (h : Well k lo idBits s live) (hnew : ∀ d, thread ∉ (s.pd d).threads)
    (hfiled : Filed lo idBits s' live) (hpd : s'.pd = s.pd) (hother : Beside thread s s') :
    Well k lo idBits s' live := by
  have hne : ∀ d, ∀ t ∈ (s.pd d).threads, t ≠ thread := fun d t ht heq => hnew d (heq ▸ ht)
  constructor
  case filed => exact hfiled
  case ids =>
    intro x hx
    rw [hother.id _ (h.not_live hnew hx)]
    exact h.ids x hx
  case eas =>
    intro x hx
    rw [hother.eas _ (h.not_live hnew hx)]
    exact h.eas x hx
  case listed =>
    intro d t
    rw [hpd]
    by_cases ht : t = thread
    · subst ht
      exact iff_of_false (hnew d) fun hlive => h.not_live hnew hlive.2 rfl
    · rw [hother.id t ht, hother.owner t ht]
      exact h.listed d t
  case awake => exact fun d => hpd ▸ h.awake d
  case empty => exact fun d => hpd ▸ h.empty d
  case known =>
    intro d
    rw [System.Known, hpd]
    exact h.known d
  case parents =>
    intro d
    rw [System.Known, hpd]
    exact h.parents d
  case area =>
    intro d o ho
    rw [hpd] at ho
    obtain ⟨hmem, u, harea, hinv⟩ := h.area d o ho
    rw [hother.objects, hpd]
    refine ⟨hmem, u, harea, ?_⟩
    rw [view_congr (congrFun hpd d) fun t ht => hother.utcb t (hne d t ht)]
    exact hinv
  case own => exact fun d d' => hpd ▸ h.own d d'
  case table => exact hother.objects ▸ h.table
  case apart => exact hother.objects ▸ h.apart

/-- The domain with a new thread. -/
theorem slots_created {u : UtcbArea} {pd : Thread.Pd} {bfl : Bfl} (h : PdInv u pd)
    (hstate : pd.state ≠ .suspended) (hnew : ∀ t ∈ pd.threads, t.addr ≠ thread)
    (hbfl : bflAlloc pd.localThreadno = (some n, bfl)) :
    PdInv u ⟨.active, pd.threads ++ [⟨thread, wordAdd u.base (u.size * n % wordSize)⟩], bfl⟩ := by
  have hfresh : ∀ t ∈ pd.threads, some thread ≠ some t.addr :=
    fun t ht heq => hnew t ht (Option.some.inj heq).symm
  obtain ⟨r, pd', hcreate, hinv, -⟩ := h.create (o := .done) hstate hfresh
  rw [pdCreateThread_eq hstate] at hcreate
  simp only [pdCreateNew, hbfl, pdFinish, threadSetup_eq hstate, if_true, ne_eq, not_true_eq_false,
    if_false] at hcreate
  obtain ⟨-, rfl⟩ := Prod.mk.inj (Except.ok.inj hcreate)
  exact hinv

/-- A new thread of a domain. -/
theorem Well.add (h : Well k lo idBits s live) {o : Memsection}
    (hself : (s.pd self).utcbMemsection = some o) (hnew : ∀ d, thread ∉ (s.pd d).threads) {bfl : Bfl}
    (hbfl : bflAlloc (s.pd self).localThreadno = (some n, bfl))
    (hfiled : Filed lo idBits s' ((id, thread) :: live))
    (hpd : s'.pd = Function.update s.pd self { s.pd self with
      state := .active
      threads := (s.pd self).threads ++ [thread]
      localThreadno := bfl })
    (hid : s'.id thread = id) (heas : s'.eas thread = 0)
    (howner : s'.security.owner thread = self)
    (hutcb : s'.utcb thread = wordAdd (s.pd self).utcbBase (k.utcbSize * n % wordSize))
    (hother : Beside thread s s') : Well k lo idBits s' ((id, thread) :: live) := by
  have hne : ∀ d, ∀ t ∈ (s.pd d).threads, t ≠ thread := fun d t ht heq => hnew d (heq ▸ ht)
  have hsame : ∀ d, (s'.pd d).utcbMemsection = (s.pd d).utcbMemsection ∧
      (s'.pd d).utcbBase = (s.pd d).utcbBase ∧ (s'.pd d).pds = (s.pd d).pds := by
    intro d
    rw [hpd]
    by_cases hd : d = self
    · subst hd
      rw [Function.update_self]
      exact ⟨rfl, rfl, rfl⟩
    · rw [Function.update_of_ne hd]
      exact ⟨rfl, rfl, rfl⟩
  constructor
  case filed => exact hfiled
  case ids =>
    intro x hx
    rcases List.mem_cons.mp hx with rfl | hx
    · exact hid
    · rw [hother.id _ (h.not_live hnew hx)]
      exact h.ids x hx
  case eas =>
    intro x hx
    rcases List.mem_cons.mp hx with rfl | hx
    · exact heas
    · rw [hother.eas _ (h.not_live hnew hx)]
      exact h.eas x hx
  case listed =>
    intro d t
    by_cases ht : t = thread
    · subst ht
      rw [howner, hid, hpd]
      by_cases hd : d = self
      · subst hd
        simp
      · rw [Function.update_of_ne hd]
        exact iff_of_false (hnew d) fun hlive => hd hlive.1.symm
    · have hmem : t ∈ (s'.pd d).threads ↔ t ∈ (s.pd d).threads := by
        rw [hpd]
        by_cases hd : d = self
        · subst hd
          simp [ht]
        · rw [Function.update_of_ne hd]
      rw [hmem, h.listed d t, hother.id t ht, hother.owner t ht, List.mem_cons, or_iff_right]
      exact fun heq => ht (Prod.mk.inj heq).2
  case awake =>
    intro d
    rw [hpd]
    by_cases hd : d = self
    · subst hd
      simp
    · rw [Function.update_of_ne hd]
      exact h.awake d
  case empty =>
    intro d hnone
    rw [(hsame d).1] at hnone
    have hd : d ≠ self := by
      rintro rfl
      rw [hself] at hnone
      cases hnone
    rw [hpd, Function.update_of_ne hd]
    exact h.empty d hnone
  case known =>
    intro d hd
    rw [(hsame d).1] at hd
    exact (h.known d hd).imp_right fun hp => hp.imp fun p hp => (hsame p).2.2 ▸ hp
  case parents =>
    intro d hd
    rw [(hsame d).2.2] at hd
    exact (h.parents d hd).imp_right fun hp => hp.imp fun p hp => (hsame p).2.2 ▸ hp
  case area =>
    intro d o' ho'
    rw [(hsame d).1] at ho'
    obtain ⟨hmem, u, harea, hinv⟩ := h.area d o' ho'
    rw [hother.objects]
    refine ⟨hmem, u, ⟨harea.a, harea.m, harea.base, ?_, harea.inside⟩, ?_⟩
    · rw [(hsame d).2.1]
      exact harea.utcbBase
    by_cases hd : d = self
    · -- the slot of the new thread is that of the number that was taken
      subst hd
      have hslot : wordAdd u.base (u.size * n % wordSize) = s'.utcb thread := by
        rw [hutcb, harea.utcbBase, harea.base, UtcbArea.size, harea.a, harea.m, Machine.utcbSize]
      have hnew' : ∀ t ∈ (s.view d).threads, t.addr ≠ thread := by
        intro t ht
        obtain ⟨a, ha, rfl⟩ := List.mem_map.mp ht
        exact hne d a ha
      have hcreated := slots_created hinv (h.awake d) hnew' hbfl
      have hview : s'.view d = ⟨.active, (s.view d).threads ++ [⟨thread, s'.utcb thread⟩], bfl⟩ := by
        rw [System.view, hpd, Function.update_self, List.map_append]
        have hold : ((s.pd d).threads.map fun t => (⟨t, s'.utcb t⟩ : UserThread)) = (s.view d).threads :=
          List.map_congr_left fun t ht => by rw [hother.utcb t (hne d t ht)]
        rw [hold]
        rfl
      rw [hview, ← hslot]
      exact hcreated
    · have hpd' : s'.pd d = s.pd d := by rw [hpd, Function.update_of_ne hd]
      rw [view_congr hpd' fun t ht => hother.utcb t (hne d t ht)]
      exact hinv
  case own =>
    intro d d' o' ho ho'
    rw [(hsame _).1] at ho ho'
    exact h.own d d' o' ho ho'
  case table => exact hother.objects ▸ h.table
  case apart => exact hother.objects ▸ h.apart

/-! ### Creating a thread -/

theorem Untouched.refl (s : System) : Untouched s s :=
  ⟨rfl, rfl, fun _ => rfl, fun _ _ _ => ⟨rfl, rfl, rfl, rfl⟩, rfl, rfl, rfl, rfl⟩

theorem Well.untouched (h : Well k lo idBits s live) (hnew : ∀ d, thread ∉ (s.pd d).threads)
    (hfiled : Filed lo idBits s' live) (hlist : s'.threadList = s.threadList) (hpd : s'.pd = s.pd)
    (hother : Beside thread s s') (hcaps : SameCaps s s') :
    Untouched s s' ∧ Well k lo idBits s' live := by
  refine ⟨⟨hlist, hpd, fun tid => ?_, fun d t ht => ?_, hother.objects, hcaps⟩,
    h.beside hnew hfiled hpd hother⟩
  · exact (hfiled.lookup tid).trans (h.filed.lookup tid).symm
  · have hne : t ≠ thread := fun heq => hnew d (heq ▸ ht)
    exact ⟨hother.id t hne, hother.utcb t hne, hother.eas t hne, hother.owner t hne⟩

/-- The end of `sys$pd_create_thread`: the number and the place on the list are given back, or the
    thread stays. -/
theorem pdFinishThread_spec (self n : Nat) (h : Filed lo idBits s live) (hlo : 0 < lo)
    (hroom : Room lo idBits live) (hthread : thread ≠ 0) (hentry : entry ≠ 0)
    (hfresh : entry ∉ s.security.threads.live) (howner : s.security.owner thread = self)
    (hstate : (s.pd self).state ≠ .suspended) (hl4 : l4.Calm) {bfl : Bfl} (hbfl : Thread.bflFree (s.pd self).localThreadno n = .ok bfl) :
    ∃ id table, (∀ x ∈ live, x.1 ≠ id) ∧
      ((l4.activate = .done ∧
        Filed lo idBits (s.withThreads table (rflAlloc s.threadList).2) ((id, thread) :: live) ∧
        pdFinishThread self thread n entry l4 s = .ok (some thread,
          (((s.setEas thread 0).withThreads table (rflAlloc s.threadList).2).setId thread id).setPd self
            fun d => { d with state := .active })) ∨
      (l4.activate ≠ .done ∧ Filed lo idBits (s.withThreads table s.threadList) live ∧
        pdFinishThread self thread n entry l4 s = .ok (none,
          (((s.setEas thread 0).withThreads table s.threadList).setId thread id).setPd self fun d =>
            { d with localThreadno := bfl, threads := d.threads.filter fun t => t ≠ thread }))) := by
  subst howner
  obtain ⟨id, table, hnew, hcases⟩ :=
    threadSetup_spec h hlo hroom hthread hentry hfresh hstate hl4
  refine ⟨id, table, hnew, ?_⟩
  rcases hcases with ⟨hact, hfiled, hsetup⟩ | ⟨hact, hfiled, hsetup⟩
  · refine .inl ⟨hact, hfiled, ?_⟩
    rw [pdFinishThread, hsetup]
    simp only [ne_eq, not_true_eq_false, if_false, setPd_setPd]
  · refine .inr ⟨hact, hfiled, ?_⟩
    rw [pdFinishThread, hsetup]
    have hstate' : ((((s.setEas thread 0).withThreads table s.threadList).setId thread id).pd
        (s.security.owner thread)).state ≠ .suspended := hstate
    have hfree : Thread.bflFree ((((s.setEas thread 0).withThreads table s.threadList).setId thread
        id).pd (s.security.owner thread)).localThreadno n = .ok bfl := hbfl
    simp only [ne_eq, one_ne_zero, not_false_eq_true, if_true, if_pos hstate', System.bflFree, hfree]
    simp only [Except.map, System.threadListDelete, setPd_setPd]

/-- A thread that has just been put at the end of a list is taken off again. -/
theorem filter_append_new {threads : List Nat} (h : thread ∉ threads) :
    (threads ++ [thread]).filter (fun t => t ≠ thread) = threads := by
  rw [List.filter_append, List.filter_cons_of_neg (by simp), List.filter_nil, List.append_nil]
  exact List.filter_eq_self.mpr fun t ht => by
    simpa using fun heq : t = thread => h (heq ▸ ht)

/-- A domain has a new thread; all other threads are where they were. -/
structure Placed (thread owner : Nat) (s s' : System) : Prop where
  threads : ∀ d t, t ∈ (s'.pd d).threads ↔ t ∈ (s.pd d).threads ∨ (d = owner ∧ t = thread)
  others : Beside thread s s'
  caps : SameCaps s s'

theorem placed_of {bfl : Bfl} (hpd : s'.pd = Function.update s.pd self { s.pd self with
      state := .active
      threads := (s.pd self).threads ++ [thread]
      localThreadno := bfl }) (hother : Beside thread s s') (hcaps : SameCaps s s') :
    Placed thread self s s' := by
  refine ⟨fun d t => ?_, hother, hcaps⟩
  rw [hpd]
  by_cases hd : d = self
  · subst hd
    simp
  · rw [Function.update_of_ne hd]
    simp [hd]

/-- **Creation of a thread.**  A domain gets a new thread, or nothing that is in use is different. -/
theorem Well.createThread (h : Well k lo idBits s live) (hlo : 0 < lo) (hroom : Room lo idBits live)
    {o : Memsection} (hself : (s.pd self).utcbMemsection = some o) {node : Option Nat}
    (hnode : ∀ thread, node = some thread → thread ≠ 0 ∧ ∀ d, thread ∉ (s.pd d).threads)
    (hentry : entry ≠ 0) (hfresh : entry ∉ s.security.threads.live) (hl4 : l4.Calm) :
    ∃ r s', pdCreateThread k self node entry l4 s = .ok (r, s') ∧
      (r = none ↔ node = none ∨ (∀ n, ¬ (s.pd self).localThreadno.Free n) ∨ l4.activate = .noMem) ∧
      ((r = none ∧ Untouched s s' ∧ Well k lo idBits s' live) ∨
        ∃ thread id, node = some thread ∧ r = some thread ∧ Placed thread self s s' ∧
          Well k lo idBits s' ((id, thread) :: live)) := by
  have hstate := h.awake self
  obtain ⟨-, u, harea, hinv⟩ := h.area self o hself
  cases node with
  | none =>
    refine ⟨none, s, ?_, iff_of_true rfl (.inl rfl), .inl ⟨rfl, .refl s, h⟩⟩
    rw [pdCreateThread, if_neg hstate]
  | some thread =>
    obtain ⟨hthread, hnew⟩ := hnode thread rfl
    have hbounded : (s.pd self).localThreadno.Bounded := by
      obtain ⟨ns, -, -, hlt, hfree⟩ := hinv.slots
      exact fun n hn => hinv.word ((hfree n).mp hn).1
    rcases bflAlloc_spec hbounded with ⟨n, hn, htook⟩ | ⟨hnone, hempty⟩
    · have hpair : bflAlloc (s.pd self).localThreadno =
          (some n, (bflAlloc (s.pd self).localThreadno).2) := Prod.ext hn rfl
      have hword : n / 64 < (s.pd self).localThreadno.len := hbounded n htook.free
      generalize hbfl : (bflAlloc (s.pd self).localThreadno).2 = bfl at hpair htook
      have hcreate : pdCreateThread k self (some thread) entry l4 s =
          pdFinishThread self thread n entry l4
            ((s.setPd self fun d => { d with
              threads := d.threads ++ [thread]
              localThreadno := bfl }).place self thread
              (wordAdd (s.pd self).utcbBase (k.utcbSize * n % wordSize))) := by
        rw [pdCreateThread, if_neg hstate]
        simp only [setPd_setPd, setPd_self, hpair]
      rw [hcreate]
      have hstart : Filed lo idBits ((s.setPd self fun d => { d with
          threads := d.threads ++ [thread]
          localThreadno := bfl }).place self thread
          (wordAdd (s.pd self).utcbBase (k.utcbSize * n % wordSize))) live := h.filed.congr rfl rfl
      have hpd : ((s.setPd self fun d => { d with
          threads := d.threads ++ [thread]
          localThreadno := bfl }).place self thread
          (wordAdd (s.pd self).utcbBase (k.utcbSize * n % wordSize))).pd self =
            { s.pd self with threads := (s.pd self).threads ++ [thread], localThreadno := bfl } :=
        Function.update_self ..
      obtain ⟨id, table, hunused, hcases⟩ := pdFinishThread_spec self n hstart hlo hroom hthread
        hentry hfresh (Function.update_self ..) (by rw [hpd]; exact hstate) hl4
        (by rw [hpd]; exact htook.undo hword)
      have hbeside : ∀ s₁ : System, s₁.id = Function.update s.id thread id →
          s₁.utcb = Function.update s.utcb thread
            (wordAdd (s.pd self).utcbBase (k.utcbSize * n % wordSize)) →
          s₁.eas = Function.update s.eas thread 0 →
          s₁.security.owner = Function.update s.security.owner thread self →
          s₁.security.objects = s.security.objects → Beside thread s s₁ := by
        intro s₁ h1 h2 h3 h4 h5
        refine ⟨fun t ht => ?_, fun t ht => ?_, fun t ht => ?_, fun t ht => ?_, h5⟩
        · rw [h1, Function.update_of_ne ht]
        · rw [h2, Function.update_of_ne ht]
        · rw [h3, Function.update_of_ne ht]
        · rw [h4, Function.update_of_ne ht]
      have hfree : ¬ ∀ n, ¬ (s.pd self).localThreadno.Free n := fun hnone => hnone n htook.free
      rcases hcases with ⟨hact, hfiled, hfinish⟩ | ⟨hact, hfiled, hfinish⟩
      · have hpd' : ((((((s.setPd self fun d => { d with
            threads := d.threads ++ [thread]
            localThreadno := bfl }).place self thread
            (wordAdd (s.pd self).utcbBase (k.utcbSize * n % wordSize))).setEas thread 0).withThreads table
            (rflAlloc s.threadList).2).setId thread id).setPd self fun d => { d with
              state := .active }).pd = Function.update s.pd self { s.pd self with
                state := .active
                threads := (s.pd self).threads ++ [thread]
                localThreadno := bfl } := by
          show Function.update (Function.update s.pd self _) self _ = _
          rw [Function.update_idem]
          simp only [System.setPd, System.setId, System.withThreads, System.setEas, System.place,
            Function.update_self]
        refine ⟨_, _, hfinish, ?_, .inr ⟨thread, id, rfl, rfl,
          placed_of hpd' (hbeside _ rfl rfl rfl rfl rfl) ⟨rfl, rfl, rfl⟩, ?_⟩⟩
        · simp [hfree, hact]
        · exact h.add hself hnew hpair (hfiled.congr rfl rfl) hpd' (Function.update_self ..)
            (Function.update_self ..) (Function.update_self ..) (Function.update_self ..)
            (hbeside _ rfl rfl rfl rfl rfl)
      · have hback : ((((((s.setPd self fun d => { d with
            threads := d.threads ++ [thread]
            localThreadno := bfl }).place self thread
            (wordAdd (s.pd self).utcbBase (k.utcbSize * n % wordSize))).setEas thread 0).withThreads table
            s.threadList).setId thread id).setPd self fun d => { d with
              localThreadno := (s.pd self).localThreadno
              threads := d.threads.filter fun t => t ≠ thread }).pd = s.pd := by
          show Function.update (Function.update s.pd self _) self _ = _
          rw [Function.update_idem]
          simp only [System.setPd, System.setId, System.withThreads, System.setEas, System.place,
            Function.update_self, filter_append_new (hnew self)]
          exact Function.update_eq_self ..
        have hmem : l4.activate = .noMem := by
          cases hl : l4.activate with
          | done => exact absurd hl hact
          | noMem => rfl
          | error => exact absurd hl hl4.2.2
        exact ⟨_, _, hfinish, iff_of_true rfl (.inr (.inr hmem)), .inl ⟨rfl,
          h.untouched hnew (hfiled.congr rfl rfl) rfl hback (hbeside _ rfl rfl rfl rfl rfl)
            ⟨rfl, rfl, rfl⟩⟩⟩
    · have hcreate : pdCreateThread k self (some thread) entry l4 s = .ok (none, s) := by
        rw [pdCreateThread, if_neg hstate]
        simp only [setPd_setPd, setPd_self, System.threadListDelete, hnone]
        rw [setPd_eq_self]
        simp only [filter_append_new (hnew self)]
      exact ⟨none, s, hcreate, iff_of_true rfl (.inr (.inl hempty)), .inl ⟨rfl, .refl s, h⟩⟩

/-! ### Deleting a thread -/

/-- A domain of a thread has a memsection. -/
theorem Well.has_area (h : Well k lo idBits s live) (hlisted : thread ∈ (s.pd d).threads) :
    ∃ o, (s.pd d).utcbMemsection = some o := by
  cases hu : (s.pd d).utcbMemsection with
  | none =>
    rw [h.empty d hu] at hlisted
    exact absurd hlisted List.not_mem_nil
  | some o => exact ⟨o, rfl⟩

/-- The domain without a thread: the number that is freed is that of its slot. -/
theorem slots_deleted {o : Memsection} {u : UtcbArea} (harea : HasArea k u o (s.pd d))
    (hinv : PdInv u (s.view d)) (hlisted : thread ∈ (s.pd d).threads)
    (hsize : k.m = 1 ∨ s.utcb thread = (s.pd d).utcbBase) :
    ∃ bfl, Thread.bflFree (s.pd d).localThreadno
        (wordShr (wordSub (s.utcb thread) (s.pd d).utcbBase) k.a) = .ok bfl ∧
      PdInv u ⟨(s.pd d).state, ((s.pd d).threads.filter fun t => t ≠ thread).map fun t =>
        ⟨t, s.utcb t⟩, bfl⟩ := by
  have hmem : (⟨thread, s.utcb thread⟩ : UserThread) ∈ (s.view d).threads :=
    List.mem_map.mpr ⟨thread, hlisted, rfl⟩
  obtain ⟨pd', hdelete, hinv'⟩ := hinv.delete hmem (by
    rw [harea.m, harea.base, ← harea.utcbBase]
    exact hsize)
  rw [Thread.threadDelete, harea.base, harea.a, ← harea.utcbBase,
    show (s.view d).localThreadno = (s.pd d).localThreadno from rfl] at hdelete
  cases hb : Thread.bflFree (s.pd d).localThreadno
      (wordShr (wordSub (s.utcb thread) (s.pd d).utcbBase) k.a) with
  | error e =>
    rw [hb] at hdelete
    cases hdelete
  | ok bfl =>
    rw [hb] at hdelete
    obtain rfl := Except.ok.inj hdelete
    have hthreads : (((s.pd d).threads.filter fun t => t ≠ thread).map fun t =>
        (⟨t, s.utcb t⟩ : UserThread)) = threadListDelete (s.view d).threads thread := by
      rw [threadListDelete, System.view, List.filter_map]
      rfl
    rw [hthreads]
    exact ⟨bfl, rfl, hinv'⟩

/-- A domain without one of its threads. -/
theorem Well.drop (h : Well k lo idBits s live) (hlisted : thread ∈ (s.pd self).threads) {bfl : Bfl}
    (hfiled : Filed lo idBits s' (live.filter fun x => x.1 ≠ s.id thread))
    (hpd : s'.pd = Function.update s.pd self { s.pd self with
      localThreadno := bfl
      threads := (s.pd self).threads.filter fun t => t ≠ thread })
    (hslots : ∀ u o, HasArea k u o (s.pd self) → PdInv u (s.view self) →
      PdInv u ⟨(s.pd self).state, ((s.pd self).threads.filter fun t => t ≠ thread).map fun t =>
        ⟨t, s.utcb t⟩, bfl⟩)
    (hid : s'.id = s.id) (heas : s'.eas = s.eas) (hutcb : s'.utcb = s.utcb)
    (howner : s'.security.owner = s.security.owner)
    (hobjects : s'.security.objects = s.security.objects) :
    Well k lo idBits s' (live.filter fun x => x.1 ≠ s.id thread) := by
  obtain ⟨hown, hlive⟩ := (h.listed self thread).mp hlisted
  have hsame : ∀ d, (s'.pd d).utcbMemsection = (s.pd d).utcbMemsection ∧
      (s'.pd d).utcbBase = (s.pd d).utcbBase ∧ (s'.pd d).pds = (s.pd d).pds ∧
      (s'.pd d).state = (s.pd d).state := by
    intro d
    rw [hpd]
    by_cases hd : d = self
    · subst hd
      rw [Function.update_self]
      exact ⟨rfl, rfl, rfl, rfl⟩
    · rw [Function.update_of_ne hd]
      exact ⟨rfl, rfl, rfl, rfl⟩
  have hmem : ∀ d t, t ∈ (s'.pd d).threads ↔ t ∈ (s.pd d).threads ∧ t ≠ thread := by
    intro d t
    rw [hpd]
    by_cases hd : d = self
    · subst hd
      simp
    · rw [Function.update_of_ne hd]
      refine (and_iff_left_of_imp fun ht heq => hd ?_).symm
      rw [← hown, ← heq]
      exact ((h.listed d t).mp ht).1.symm
  constructor
  case filed => exact hfiled
  case ids =>
    rw [hid]
    exact fun x hx => h.ids x (List.mem_filter.mp hx).1
  case eas =>
    rw [heas]
    exact fun x hx => h.eas x (List.mem_filter.mp hx).1
  case listed =>
    intro d t
    rw [hmem, h.listed d t, howner, hid, List.mem_filter, decide_eq_true_eq, and_assoc]
    refine and_congr_right fun _ => and_congr_right fun ht => not_congr ⟨fun heq => heq ▸ rfl, fun heq => ?_⟩
    exact (Prod.mk.inj (h.filed.id_inj ht hlive heq)).2
  case awake => exact fun d => (hsame d).2.2.2 ▸ h.awake d
  case empty =>
    intro d hd
    rw [(hsame d).1] at hd
    refine List.eq_nil_iff_forall_not_mem.mpr fun t ht => ?_
    have ht' := ((hmem d t).mp ht).1
    rw [h.empty d hd] at ht'
    exact absurd ht' List.not_mem_nil
  case known =>
    intro d hd
    rw [(hsame d).1] at hd
    exact (h.known d hd).imp_right fun hp => hp.imp fun p hp => (hsame p).2.2.1 ▸ hp
  case parents =>
    intro d hd
    rw [(hsame d).2.2.1] at hd
    exact (h.parents d hd).imp_right fun hp => hp.imp fun p hp => (hsame p).2.2.1 ▸ hp
  case area =>
    intro d o ho
    rw [(hsame d).1] at ho
    obtain ⟨hcreated, u, harea, hinv⟩ := h.area d o ho
    rw [hobjects]
    refine ⟨hcreated, ?_⟩
    by_cases hd : d = self
    · subst hd
      refine ⟨u, ⟨harea.a, harea.m, harea.base, ?_, harea.inside⟩, ?_⟩
      · rw [(hsame d).2.1]
        exact harea.utcbBase
      · rw [System.view, hpd, Function.update_self, hutcb]
        exact hslots u o harea hinv
    · have hpd' : s'.pd d = s.pd d := by rw [hpd, Function.update_of_ne hd]
      rw [hpd', view_congr hpd' fun t _ => congrFun hutcb t]
      exact ⟨u, harea, hinv⟩
  case own =>
    intro d d' o h1 h2
    rw [(hsame _).1] at h1 h2
    exact h.own d d' o h1 h2
  case table => exact hobjects ▸ h.table
  case apart => exact hobjects ▸ h.apart

/-- The domain of a thread does not have it any more; all other threads are where they were. -/
structure Removed (thread : Nat) (s s' : System) : Prop where
  threads : ∀ d t, t ∈ (s'.pd d).threads ↔ t ∈ (s.pd d).threads ∧ t ≠ thread
  id : s'.id = s.id
  owner : s'.security.owner = s.security.owner
  objects : s'.security.objects = s.security.objects
  caps : SameCaps s s'

/-- **Deletion of a thread.**  Its identifier and its slot are free again. -/
theorem Well.deleteThread (h : Well k lo idBits s live) (hlo : 0 < lo)
    (hlisted : thread ∈ (s.pd (s.security.owner thread)).threads)
    (hsize : k.m = 1 ∨ s.utcb thread = (s.pd (s.security.owner thread)).utcbBase) :
    ∃ s', threadDelete k thread s = .ok s' ∧ Removed thread s s' ∧
      Well k lo idBits s' (live.filter fun x => x.1 ≠ s.id thread) := by
  have hlive : (s.id thread, thread) ∈ live := ((h.listed _ thread).mp hlisted).2
  obtain ⟨o, ho⟩ := h.has_area hlisted
  obtain ⟨-, u, harea, hinv⟩ := h.area _ o ho
  obtain ⟨table, hfree, hfiled⟩ := h.filed.free hlo hlive
  obtain ⟨bfl, hbfl, hinv'⟩ := slots_deleted harea hinv hlisted hsize
  have hdelete : threadDelete k thread s = .ok ((s.withThreads table
      (rflFree s.threadList (l4ThreadNo (s.id thread))).2).setPd (s.security.owner thread) fun d =>
        { d with localThreadno := bfl, threads := d.threads.filter fun t => t ≠ thread }) := by
    rw [threadDelete, if_neg (h.filed.ne_zero hlive)]
    simp only [hfree, h.eas _ hlive, if_true]
    rw [System.bflFree, show (s.withThreads table
      (rflFree s.threadList (l4ThreadNo (s.id thread))).2).pd = s.pd from rfl, hbfl]
    simp only [Except.map, System.threadListDelete, setPd_setPd]
  refine ⟨_, hdelete, ⟨fun d t => ?_, rfl, rfl, rfl, rfl, rfl, rfl⟩,
    h.drop hlisted (hfiled.congr rfl rfl) rfl (fun u' o' harea' hinv'' => ?_) rfl rfl rfl rfl rfl⟩
  · by_cases hd : d = s.security.owner thread
    · subst hd
      rw [setPd_self]
      simp only [List.mem_filter, decide_eq_true_eq]
      exact Iff.rfl
    · rw [setPd_of_ne hd]
      refine (and_iff_left_of_imp fun ht heq => hd ?_).symm
      rw [← heq]
      exact ((h.listed d t).mp ht).1.symm
  obtain ⟨bfl', hbfl', hslots⟩ := slots_deleted harea' hinv'' hlisted hsize
  obtain rfl := Except.ok.inj (hbfl.symm.trans hbfl')
  exact hslots

/-! ### The object table -/

/-- The object table after calls that have made these memsections too. -/
theorem Well.setObjects (h : Well k lo idBits s live) {objects : Table}
    (htable : ∃ v, TInv k.order k.list objects v)
    (hcreated : objects.created = s.security.objects.created ∨
      ∃ o, Kernel.Fresh k.list s.security.objects o ∧
        objects.created = o :: s.security.objects.created) :
    Well k lo idBits (s.setObjects objects) live := by
  refine { h with filed := h.filed.congr rfl rfl, table := htable, area := ?_, apart := ?_ }
  · intro d o ho
    obtain ⟨hmem, hu⟩ := h.area d o ho
    refine ⟨?_, hu⟩
    show o ∈ objects.created
    rcases hcreated with heq | ⟨o', -, heq⟩
    · rwa [heq]
    · rw [heq]
      exact List.mem_cons_of_mem _ hmem
  · show ∀ x ∈ objects.created, ∀ y ∈ objects.created, x ≠ y → ¬ Meets x y
    rcases hcreated with heq | ⟨o, hfresh, heq⟩
    · rw [heq]
      exact h.apart
    · rw [heq]
      have hsymm : ∀ x y, Meets x y → Meets y x := by
        rintro x y ⟨a, hx, hy⟩
        exact ⟨a, hy, hx⟩
      intro x hx y hy hne
      rcases List.mem_cons.mp hx with hxo | hxold
      · rcases List.mem_cons.mp hy with hyo | hyold
        · exact absurd (hxo.trans hyo.symm) hne
        · exact hxo ▸ hfresh.disjoint y hyold
      · rcases List.mem_cons.mp hy with hyo | hyold
        · exact fun hm => hfresh.disjoint x hxold (hyo ▸ hsymm _ _ hm)
        · exact h.apart x hxold y hyold hne

/-- A memsection that does not overlap the others is put into the table. -/
theorem pdCreateMemsection_spec (hv : ValidOrder k.order)
    (htable : ∃ v, TInv k.order k.list s.security.objects v) {o : Memsection}
    (hlegal : (TableCall.create d o).Legal k.order k.list s.security.objects) :
    ∃ objects, pdCreateMemsection k d o s = .ok (true, s.setObjects objects) ∧
      tableStep k.order k.list (.create d o) s.security.objects = .ok objects ∧
      (∃ v, TInv k.order k.list objects v) ∧ objects.created = o :: s.security.objects.created := by
  have hstep := TInv.step hv htable hlegal
  obtain ⟨v, hinv⟩ := htable
  obtain ⟨t, pool, hins⟩ : ∃ t pool,
      objtableInsert k.order s.security.objects o = some (0, t, pool) := by
    by_cases hinit : s.security.objects.initialized = true
    · obtain ⟨t, ht⟩ : ∃ t, s.security.objects.objtable = some t := by
        cases hinv.phase with
        | booting hno =>
          rw [hinit] at hno
          cases hno
        | booted _ _ _ _ _ _ _ htable => exact htable
      obtain ⟨t', pool', hins, -⟩ := hinv.insert hv hlegal.1 hinit ht (hlegal.2 t ht)
      exact ⟨_, _, hins⟩
    · exact ⟨_, _, if_neg hinit⟩
  simp only [tableStep, hins, if_true] at hstep ⊢
  refine ⟨_, ?_, rfl, ?_, rfl⟩
  · rw [pdCreateMemsection, hins]
    simp only [if_true]
  · cases hstep with
    | ok h => exact h

/-! ### Making a domain -/

theorem Known.setPd (hpds : ∀ x ∈ (s.pd d).pds, x ∈ (f (s.pd d)).pds) {x : Nat} (h : s.Known x) :
    (s.setPd d f).Known x := by
  refine h.imp_right fun ⟨p, hp⟩ => ⟨p, ?_⟩
  by_cases hd : p = d
  · subst hd
    rw [setPd_self]
    exact hpds x hp
  · rwa [setPd_of_ne hd]

/-- A domain that keeps its threads is changed. -/
theorem Well.setPd (h : Well k lo idBits s live) (hthreads : (f (s.pd d)).threads = (s.pd d).threads)
    (hstate : (f (s.pd d)).state ≠ .suspended)
    (hpds : ∀ x ∈ (s.pd d).pds, x ∈ (f (s.pd d)).pds)
    (hknown : (f (s.pd d)).pds ≠ [] ∨ (f (s.pd d)).utcbMemsection ≠ none → s.Known d)
    (hempty : (f (s.pd d)).utcbMemsection = none → (s.pd d).threads = [])
    (harea : ∀ o, (f (s.pd d)).utcbMemsection = some o → o ∈ s.security.objects.created ∧
      (∀ d', d' ≠ d → (s.pd d').utcbMemsection ≠ some o) ∧
      ∃ u, HasArea k u o (f (s.pd d)) ∧ PdInv u ⟨(f (s.pd d)).state,
        (s.pd d).threads.map fun t => ⟨t, s.utcb t⟩, (f (s.pd d)).localThreadno⟩) :
    Well k lo idBits (s.setPd d f) live := by
  have hsame : ∀ d', ((s.setPd d f).pd d').threads = (s.pd d').threads := by
    intro d'
    by_cases hd : d' = d
    · subst hd
      rw [setPd_self, hthreads]
    · rw [setPd_of_ne hd]
  constructor
  case filed => exact h.filed.congr rfl rfl
  case ids => exact h.ids
  case eas => exact h.eas
  case listed =>
    intro d' t
    rw [hsame]
    exact h.listed d' t
  case awake =>
    intro d'
    by_cases hd : d' = d
    · subst hd
      rw [setPd_self]
      exact hstate
    · rw [setPd_of_ne hd]
      exact h.awake d'
  case empty =>
    intro d' hnone
    rw [hsame]
    by_cases hd : d' = d
    · subst hd
      rw [setPd_self] at hnone
      exact hempty hnone
    · rw [setPd_of_ne hd] at hnone
      exact h.empty d' hnone
  case known =>
    intro d' hsome
    apply Known.setPd hpds
    by_cases hd : d' = d
    · subst hd
      rw [setPd_self] at hsome
      exact hknown (.inr hsome)
    · rw [setPd_of_ne hd] at hsome
      exact h.known d' hsome
  case parents =>
    intro d' hsome
    apply Known.setPd hpds
    by_cases hd : d' = d
    · subst hd
      rw [setPd_self] at hsome
      exact hknown (.inl hsome)
    · rw [setPd_of_ne hd] at hsome
      exact h.parents d' hsome
  case area =>
    intro d' o ho
    by_cases hd : d' = d
    · subst hd
      rw [setPd_self] at ho
      obtain ⟨hmem, -, u, hu, hinv⟩ := harea o ho
      refine ⟨hmem, u, ?_, ?_⟩
      · rw [setPd_self]
        exact hu
      · rw [System.view, setPd_self, hthreads]
        exact hinv
    · rw [setPd_of_ne hd] at ho ⊢
      rw [view_congr (s := s) (setPd_of_ne hd) fun _ _ => rfl]
      exact h.area d' o ho
  case own =>
    intro d₁ d₂ o h₁ h₂
    by_cases hd₁ : d₁ = d
    · by_cases hd₂ : d₂ = d
      · rw [hd₁, hd₂]
      · subst hd₁
        rw [setPd_self] at h₁
        rw [setPd_of_ne hd₂] at h₂
        exact absurd h₂ ((harea o h₁).2.1 d₂ hd₂)
    · by_cases hd₂ : d₂ = d
      · subst hd₂
        rw [setPd_self] at h₂
        rw [setPd_of_ne hd₁] at h₁
        exact absurd h₁ ((harea o h₂).2.1 d₁ hd₁)
      · rw [setPd_of_ne hd₁] at h₁
        rw [setPd_of_ne hd₂] at h₂
        exact h.own d₁ d₂ o h₁ h₂
  case table => exact h.table
  case apart => exact h.apart

/-- The loop that looks for a power of two ends with one that is large enough. -/
theorem utcbFpageSize_some {areaSize : Nat} (harea : areaSize ≤ 2 ^ 63) : ∀ (fuel j : Nat),
    fuel + j = 64 → 0 < fuel → ∃ fpageSize, utcbFpageSize areaSize fuel (2 ^ j) = some fpageSize ∧
      areaSize ≤ fpageSize := by
  intro fuel
  induction fuel with
  | zero => exact fun _ _ h => absurd h (Nat.lt_irrefl 0)
  | succ fuel ih =>
    intro j hj _
    rw [utcbFpageSize]
    by_cases hlt : 2 ^ j < areaSize
    · have hj63 : j < 63 := by
        by_contra hge
        have hpow : (2 : Nat) ^ 63 ≤ 2 ^ j := Nat.pow_le_pow_right (by decide) (by omega)
        omega
      have hshl : wordShl (2 ^ j) 1 = 2 ^ (j + 1) := by
        rw [wordShl, show 1 % 64 = 1 from rfl, ← Nat.pow_add]
        exact Nat.mod_eq_of_lt (Nat.pow_lt_pow_right (by decide) (by omega))
      rw [if_pos hlt, hshl]
      exact ih (j + 1) (by omega) (by omega)
    · rw [if_neg hlt]
      exact ⟨_, rfl, Nat.le_of_not_lt hlt⟩

theorem Machine.shift (k : Machine) : k.a < 64 := by
  have hsmall := k.small
  have hpos : 0 < 2 ^ k.bits := Nat.two_pow_pos _
  have hmul : 2 ^ k.a ≤ k.m * 2 ^ k.a := Nat.le_mul_of_pos_left _ k.multiple
  have hlt : 2 ^ k.a < 2 ^ 64 := lt_of_le_of_lt hmul (by omega)
  exact (Nat.pow_lt_pow_iff_right (by decide)).mp hlt

/-- The memsection that is asked for has room for the UTCBs. -/
theorem utcbSectionSize_some (hthreads : n ≤ 256) :
    ∃ fpageSize, utcbSectionSize k n = some fpageSize ∧ k.utcbSize * n ≤ fpageSize := by
  have hsmall := k.small
  have hmul : k.utcbSize * n ≤ k.m * 2 ^ k.a * 256 := Nat.mul_le_mul_left _ hthreads
  have hpow : 0 < 2 ^ k.bits := Nat.two_pow_pos _
  have hw : (2 : Nat) ^ 63 < wordSize := by decide
  rw [utcbSectionSize, Nat.mod_eq_of_lt (show k.utcbSize * n < wordSize by omega)]
  generalize k.utcbSize * n = size at hmul ⊢
  have hround : Boot.pageRoundUp size (2 ^ k.bits) =
      (size + (2 ^ k.bits - 1)) / 2 ^ k.bits * 2 ^ k.bits := by
    rw [Boot.pageRoundUp, wordAdd, Nat.mod_eq_of_lt (by omega)]
  have hle : (size + (2 ^ k.bits - 1)) / 2 ^ k.bits * 2 ^ k.bits ≤ size + (2 ^ k.bits - 1) :=
    Nat.div_mul_le_self _ _
  have hge : size ≤ (size + (2 ^ k.bits - 1)) / 2 ^ k.bits * 2 ^ k.bits := by
    have hdiv := Nat.div_add_mod (size + (2 ^ k.bits - 1)) (2 ^ k.bits)
    have hmod := Nat.mod_lt (size + (2 ^ k.bits - 1)) hpow
    rw [Nat.mul_comm] at hdiv
    omega
  have hsmall : (size + (2 ^ k.bits - 1)) / 2 ^ k.bits * 2 ^ k.bits ≤ 2 ^ 63 := by omega
  obtain ⟨fpageSize, hsome, hfit⟩ := utcbFpageSize_some hsmall 64 0 rfl (by decide)
  rw [hround]
  exact ⟨fpageSize, hsome, hge.trans hfit⟩

/-- The memory that is found for the UTCB area of a new domain: it overlaps nothing, has the size that
    is asked for, and ends within the words. -/
def AreaFits (k : Machine) (s : System) (maxThreads : Int) (new : Nat) (o : Memsection) : Prop :=
  (TableCall.create new o).Legal k.order k.list s.security.objects ∧ ∀ fpageSize,
    utcbSectionSize k (if maxThreads = 0 then maxThreadsPerApd else maxThreads).toNat = some fpageSize →
      o.end_ + 1 = o.base + fpageSize ∧ o.base + fpageSize ≤ wordSize

/-- A domain as `sys$pd_setup` leaves it. -/
theorem Well.setup (bfl : Bfl) (h : Well k lo idBits s live) (hnew : ¬ s.Known d)
    (hself : s.Known self) :
    Well k lo idBits ((s.setPd self fun x => { x with pds := x.pds ++ [d] }).setPd d fun x =>
      { x with state := .empty, pds := [], threads := [], localThreadno := bfl }) live := by
  have hne : d ≠ self := fun heq => hnew (heq ▸ hself)
  have hnone : (s.pd d).utcbMemsection = none := by
    by_contra hsome
    exact hnew (h.known d hsome)
  have hpds : (s.pd d).pds = [] := by
    by_contra hsome
    exact hnew (h.parents d hsome)
  have hchild : Well k lo idBits (s.setPd self fun x => { x with pds := x.pds ++ [d] }) live := by
    refine h.setPd rfl (h.awake self) (fun x hx => List.mem_append_left _ hx) (fun _ => hself)
      (h.empty self) fun o ho => ?_
    obtain ⟨hmem, u, harea, hinv⟩ := h.area self o ho
    refine ⟨hmem, fun d' hd' ho' => hd' (h.own d' self o ho' ho), u, ?_, hinv⟩
    exact ⟨harea.a, harea.m, harea.base, harea.utcbBase, harea.inside⟩
  have hpd : (s.setPd self fun x => { x with pds := x.pds ++ [d] }).pd d = s.pd d := setPd_of_ne hne
  refine hchild.setPd ?_ (by simp) (fun x hx => ?_) (fun hsome => ?_) (fun _ => ?_) fun o ho => ?_
  · rw [hpd]
    exact (h.empty d hnone).symm
  · rw [hpd, hpds] at hx
    exact absurd hx List.not_mem_nil
  · rw [hpd] at hsome
    exact hsome.elim (absurd rfl) (absurd hnone)
  · rw [hpd]
    exact h.empty d hnone
  · rw [hpd, hnone] at ho
    cases ho

/-- **Creation of a domain.**  It is one with a UTCB area of its own, or one that is not used. -/
theorem Well.createDomain (hv : ValidOrder k.order) (h : Well k lo idBits s live)
    {parent node : Option Nat} {maxThreads : Int} {area : Option Memsection} (hmax : 0 ≤ maxThreads)
    (hself : ∀ self, parent = some self → s.Known self) (hnew : ∀ new, node = some new → ¬ s.Known new)
    (harea : ∀ new o, node = some new → area = some o → AreaFits k s maxThreads new o) :
    ∃ r s', pdCreate k parent maxThreads node area s = .ok (r, s') ∧ SameCaps s s' ∧
      Well k lo idBits s' live := by
  unfold pdCreate
  by_cases hlarge : maxThreads > maxThreadsPerApd
  · rw [if_pos hlarge]
    exact ⟨none, s, rfl, ⟨rfl, rfl, rfl⟩, h⟩
  rw [if_neg hlarge]
  cases parent with
  | none => exact ⟨none, s, rfl, ⟨rfl, rfl, rfl⟩, h⟩
  | some self =>
    cases node with
    | none => exact ⟨none, s, rfl, ⟨rfl, rfl, rfl⟩, h⟩
    | some new =>
      have hunknown := hnew new rfl
      have hbound : (maxThreadsPerApd : Int) = 256 := rfl
      have hthreads : ((if maxThreads = 0 then maxThreadsPerApd else maxThreads) % wordSize).toNat =
          (if maxThreads = 0 then maxThreadsPerApd else maxThreads).toNat := by
        have hw : (256 : Int) < (wordSize : Int) := by decide
        rw [Int.emod_eq_of_lt]
        · split <;> omega
        · split <;> omega
      simp only [hthreads]
      generalize hn : (if maxThreads = 0 then maxThreadsPerApd else maxThreads).toNat = threads
      have hle : threads ≤ 256 := by
        rw [← hn]
        split <;> omega
      obtain ⟨bfl, hbfl, hlen, hfree⟩ := bflNew_spec threads
      obtain ⟨fpageSize, hsize, hfit⟩ := utcbSectionSize_some (k := k) hle
      have hsetup := h.setup bfl hunknown (hself self rfl)
      simp only [pdSetup, hbfl, setupUtcbArea, hsize]
      have hknown : ((s.setPd self fun x => { x with pds := x.pds ++ [new] }).setPd new fun x =>
          { x with state := .empty, pds := [], threads := [], localThreadno := bfl }).Known new := by
        refine .inr ⟨self, ?_⟩
        have hne : self ≠ new := fun heq => hunknown (heq ▸ hself self rfl)
        rw [setPd_of_ne hne, setPd_self]
        simp
      generalize hs₁ : ((s.setPd self fun x => { x with pds := x.pds ++ [new] }).setPd new fun x =>
          { x with state := .empty, pds := [], threads := [], localThreadno := bfl }) = s₁ at hsetup hknown ⊢
      have hpd : s₁.pd new = { s.pd new with
          state := .empty, pds := [], threads := [], localThreadno := bfl } := by
        have hne : new ≠ self := fun heq => hunknown (heq ▸ hself self rfl)
        rw [← hs₁, setPd_self, setPd_of_ne hne]
      have hsecurity : s₁.security = s.security := by rw [← hs₁]; rfl
      -- a domain without a UTCB area is not used
      have hunused : ∀ s₂ : System, Well k lo idBits s₂ live → s₂.pd = s₁.pd →
          Well k lo idBits (s₂.setPd new fun d => { d with utcbMemsection := none }) live := by
        intro s₂ h₂ hpd₂
        have hknown₂ : s₂.Known new := by rw [System.Known, hpd₂]; exact hknown
        refine h₂.setPd rfl (h₂.awake new) (fun _ hx => hx) (fun _ => hknown₂) (fun _ => ?_)
          fun o ho => ?_
        · rw [hpd₂, hpd]
        · cases ho
      have hcaps : ∀ s₂ : System, s₂.security.links = s₁.security.links →
          s₂.security.data = s₁.security.data → s₂.security.obj = s₁.security.obj → SameCaps s s₂ := by
        intro s₂ h1 h2 h3
        rw [hsecurity] at h1 h2 h3
        exact ⟨h1, h2, h3⟩
      cases area with
      | none => exact ⟨none, _, rfl, hcaps _ rfl rfl rfl, hunused s₁ hsetup rfl⟩
      | some o =>
        obtain ⟨hlegal, hbounds⟩ := harea new o rfl rfl
        rw [hn] at hbounds
        obtain ⟨hend, hword⟩ := hbounds fpageSize hsize
        rw [← hsecurity] at hlegal
        obtain ⟨objects, hcreate, -, htable, hcreated⟩ := pdCreateMemsection_spec hv hsetup.table hlegal
        have hwith := hsetup.setObjects htable (.inr ⟨o, hlegal.1, hcreated⟩)
        simp only [hcreate]
        by_cases hoff : o.base % fpageSize ≠ 0
        · simp only [if_pos hoff]
          exact ⟨none, _, rfl, hcaps _ rfl rfl rfl, hunused _ hwith rfl⟩
        · simp only [if_neg hoff, setPd_setPd]
          refine ⟨some new, _, rfl, hcaps _ rfl rfl rfl, ?_⟩
          let u : UtcbArea := ⟨k.a, k.m, threads, o.base, k.multiple, k.shift, by omega, by
            have hfit' : k.m * 2 ^ k.a * threads ≤ fpageSize := hfit
            omega⟩
          have hslots : PdInv u ⟨.empty, [], bfl⟩ := pdSetup_inv (by
            rw [Thread.pdSetup, hbfl]
            rfl)
          refine hwith.setPd rfl ?_ (fun _ hx => hx) (fun _ => hknown) (fun hnone => ?_)
            fun o' ho' => ?_
          · show (s₁.pd new).state ≠ _
            rw [hpd]
            simp
          · cases hnone
          · obtain rfl : o = o' := Option.some.inj ho'
            refine ⟨?_, fun d' _ hd' => ?_, u, ⟨rfl, rfl, rfl, rfl, ?_⟩, ?_⟩
            · show o ∈ objects.created
              rw [hcreated]
              exact List.mem_cons_self
            · -- the memsection is new
              have hmem := (hsetup.area d' o hd').1
              exact hlegal.1.disjoint o hmem ⟨o.base, ⟨le_rfl, hlegal.1.proper⟩, le_rfl, hlegal.1.proper⟩
            · rw [hend]
              exact Nat.add_le_add_left hfit _
            · show PdInv u ⟨(s₁.pd new).state, (s₁.pd new).threads.map _, (s₁.pd new).localThreadno⟩
              rw [hpd]
              exact hslots

end

end FreeVMS.Exec
