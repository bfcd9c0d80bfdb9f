import FreeVMS.Exec.PageFault

/-!
# Threads over whole runs

Whatever messages arrive and whatever calls fail, the loop stops or the threads are in order: the table
finds exactly the threads that are on the list of a domain, and no two of them, of one domain or of two,
have a UTCB in common.

`sys$thread_delete` gives back the number of a slot only where the size of a UTCB is its alignment,
which is assumed here.
-/

namespace FreeVMS.Exec

open Alloc BTree Kernel Kernel.Access Thread Run LinkRing

/-- `NUMBER_OF_KERNEL_THREADS` -/
def numberOfKernelThreads : Nat := 256

/-- `JOBCTL$THREAD_PD_HASHSIZE` -/
def threadPdHashsize : Nat := 4096

/-- After `sys$thread_init`, with `freevms_pd` set up; the cells of the table of threads hold `old`. -/
def startup (idBits myself : Nat) (old : List Nat) (pool : PagePool) : Except Fault Server :=
  let r := rflInsertRange [] (minThreadno myself) (wordShl 1 idBits)
  if r.1 ≠ .success then .error .panic
  else
    match Chained.hashInit threadPdHashsize old with
    | .error e => .error (.table e)
    | .ok threads =>
        match bflNew numberOfKernelThreads with
        | .error e => .error (.bits e)
        | .ok bfl => .ok
          { system :=
              { security := ⟨threads, fun _ => 0, Table.init pool, ⟨fun c => c, fun c => c⟩,
                  fun _ => ⟨0, 0⟩, fun _ _ => 0⟩
                threadList := r.2
                id := fun _ => 0
                utcb := fun _ => 0
                eas := fun _ => 0
                pd := fun d => ⟨if d = 0 then .active else .empty, [], [], bfl, none, 0, nilpage⟩ }
            string := fun _ => 0
            console := [] }

section

variable (k : Machine) (lo idBits : Nat)

/-- What the heap and the allocators answer, and what callers keep to.  A thread is only created while
    there are numbers left that `sys$thread_alloc` can hand out. -/
def Call.Legal (c : Call) (s : System) : Prop :=
  match c with
  | .table c => c.Legal k.order k.list s.security.objects
  | .domain self maxThreads node area => 0 ≤ maxThreads ∧ (∀ p, self = some p → s.Known p) ∧
      (∀ new, node = some new → ¬ s.Known new) ∧
      ∀ new o, node = some new → area = some o → AreaFits k s maxThreads new o
  | .thread self node entry l4 => (s.pd self).utcbMemsection ≠ none ∧
      (∀ thread, node = some thread → thread ≠ 0 ∧ ∀ d, thread ∉ (s.pd d).threads) ∧
      entry ≠ 0 ∧ entry ∉ s.security.threads.live ∧ l4.Calm ∧
      ∃ n, lo ≤ n ∧ n < limit idBits ∧ ∀ d, ∀ t ∈ (s.pd d).threads, l4ThreadNo (s.id t) ≠ n
  | .clist _ array p => p ≠ 0 → Lies s.security array ∧
      ∀ v, Rings s.security v → ∀ d, .node p ∉ v d
  | .capability _ _ _ => True

def Input.Legal (i : Input) (s : Server) : Prop :=
  match i with
  | .call c => c.Legal k lo idBits s.system
  | .message _ => True

/-- The threads are in order. -/
structure Orderly (s : System) : Prop where
  returns : ∀ tid, ∃ thread, threadLookup s.security tid = .ok thread
  found : ∀ tid thread, thread ≠ 0 → (threadLookup s.security tid = .ok thread ↔
    s.id thread = tid ∧ ∃ d, thread ∈ (s.pd d).threads)
  owner : ∀ d, ∀ t ∈ (s.pd d).threads, s.security.owner t = d
  numbers : ∀ n, Within n s.threadList ↔ lo ≤ n ∧ n ≤ 2 ^ idBits ∧
    ∀ d, ∀ t ∈ (s.pd d).threads, l4ThreadNo (s.id t) ≠ n
  apart : ∀ d d', ∀ t ∈ (s.pd d).threads, ∀ t' ∈ (s.pd d').threads, t ≠ t' →
    s.utcb t + k.utcbSize ≤ s.utcb t' ∨ s.utcb t' + k.utcbSize ≤ s.utcb t
  inside : ∀ d, ∀ t ∈ (s.pd d).threads, ∃ o ∈ s.security.objects.created,
    (s.pd d).utcbMemsection = some o ∧ o.base ≤ s.utcb t ∧ s.utcb t + k.utcbSize ≤ o.end_ + 1

/-- What is kept, for the identifiers in use. -/
def Sound (s : System) (live : List (Nat × Nat)) : Prop :=
  Well k lo idBits s live ∧ ∃ v, Rings s.security v

/-- The call makes a thread, which gets the identifier `tid`. -/
def Creates (c : Call) (s : System) (tid : Nat) : Prop :=
  ∃ self node entry l4 thread s', c = .thread self node entry l4 ∧
    pdCreateThread k self node entry l4 s = .ok (some thread, s') ∧ s'.id thread = tid

/-- How the loop can stop. -/
def Stops (e : Fault) : Prop :=
  e = .panic ∨ e = .null ∨ e = .overrun ∨ e = .access .diverge

end

section

variable {k : Machine} {lo idBits d fuel : Nat} {s s' : System} {live : List (Nat × Nat)}

theorem HasArea.size_eq {u : UtcbArea} {o : Memsection} {x : Domain} (h : HasArea k u o x) :
    u.size = k.utcbSize := by
  rw [UtcbArea.size, h.a, h.m, Machine.utcbSize]

/-- A UTCB lies in the memsection of its domain. -/
theorem Well.inside (h : Well k lo idBits s live) {t : Nat} (ht : t ∈ (s.pd d).threads) :
    ∃ o ∈ s.security.objects.created, (s.pd d).utcbMemsection = some o ∧ o.base ≤ s.utcb t ∧
      s.utcb t + k.utcbSize ≤ o.end_ + 1 := by
  obtain ⟨o, ho⟩ := h.has_area ht
  obtain ⟨hmem, u, harea, hinv⟩ := h.area d o ho
  have hin := hinv.well.inside ⟨t, s.utcb t⟩ (List.mem_map_of_mem ht)
  rw [harea.base, harea.size_eq] at hin
  have hfit := harea.inside
  rw [harea.size_eq] at hfit
  exact ⟨o, hmem, ho, hin.1, hin.2.trans hfit⟩

/-- Two UTCBs have no byte in common. -/
theorem Well.utcbs_apart (h : Well k lo idBits s live) {d' t t' : Nat} (ht : t ∈ (s.pd d).threads)
    (ht' : t' ∈ (s.pd d').threads) (hne : t ≠ t') :
    s.utcb t + k.utcbSize ≤ s.utcb t' ∨ s.utcb t' + k.utcbSize ≤ s.utcb t := by
  by_cases hd : d = d'
  · -- slots of one area
    subst hd
    obtain ⟨o, ho⟩ := h.has_area ht
    obtain ⟨-, u, harea, hinv⟩ := h.area d o ho
    have hpair : (s.pd d).threads.Pairwise fun t t' =>
        s.utcb t + u.size ≤ s.utcb t' ∨ s.utcb t' + u.size ≤ s.utcb t :=
      List.pairwise_map.mp hinv.well.disjoint
    rw [← harea.size_eq]
    have hsymm : Std.Symm fun t t' =>
        s.utcb t + u.size ≤ s.utcb t' ∨ s.utcb t' + u.size ≤ s.utcb t := ⟨fun _ _ h => h.symm⟩
    exact hpair.forall ht ht' hne
  · -- memsections of two domains
    obtain ⟨o, hmem, ho, hlow, hhigh⟩ := h.inside ht
    obtain ⟨o', hmem', ho', hlow', hhigh'⟩ := h.inside ht'
    have hdiff : o ≠ o' := fun heq => hd (h.own d d' o ho (heq ▸ ho'))
    have happart := h.apart o hmem o' hmem' hdiff
    by_contra hcon
    rw [not_or, Nat.not_le, Nat.not_le] at hcon
    refine happart ⟨max (s.utcb t) (s.utcb t'), ⟨?_, ?_⟩, ?_, ?_⟩ <;> omega

/-- The invariant says what the structures are for. -/
theorem Well.orderly (h : Well k lo idBits s live) : Orderly k lo idBits s := by
  constructor
  case returns => exact fun tid => ⟨_, h.filed.lookup tid⟩
  case found =>
    intro tid thread hthread
    rw [h.filed.lookup_iff hthread]
    constructor
    · intro hlive
      exact ⟨h.ids _ hlive, _, h.live_listed hlive⟩
    · rintro ⟨rfl, d, hd⟩
      exact ((h.listed d thread).mp hd).2
  case owner => exact fun d t ht => ((h.listed d t).mp ht).1
  case numbers =>
    intro n
    obtain ⟨table, hinv, -⟩ := h.filed
    rw [hinv.free]
    refine and_congr_right fun _ => and_congr_right fun _ => ?_
    constructor
    · intro hn d t ht heq
      exact hn (mem_numbers.mpr ⟨_, ((h.listed d t).mp ht).2, heq⟩)
    · intro hn hmem
      obtain ⟨x, hx, hxn⟩ := mem_numbers.mp hmem
      refine hn _ x.2 (h.live_listed hx) ?_
      rw [h.ids x hx]
      exact hxn
  case apart => exact fun d d' t ht t' ht' hne => h.utcbs_apart ht ht' hne
  case inside => exact fun d t ht => h.inside ht

/-! ### The calls -/

theorem rings_congr {t t' : Security} {v : Nat → List Access.Cell} (h : Rings t v)
    (hlinks : t'.links = t.links) : Rings t' v :=
  ⟨fun d => hlinks ▸ h.hangs d, h.nodes, h.apart⟩

/-- The lists and the arrays of capabilities do not matter. -/
theorem Well.security (h : Well k lo idBits s live) {t : Security}
    (hthreads : t.threads = s.security.threads) (howner : t.owner = s.security.owner)
    (hobjects : t.objects = s.security.objects) :
    Well k lo idBits { s with security := t } live := by
  refine ⟨h.filed.congr rfl hthreads, h.ids, h.eas, fun d x => ?_, h.awake, h.empty, h.known, h.parents,
    fun d o ho => ?_, h.own, ?_, ?_⟩
  · show x ∈ (s.pd d).threads ↔ t.owner x = d ∧ _
    rw [howner]
    exact h.listed d x
  · show o ∈ t.objects.created ∧ _
    rw [hobjects]
    exact h.area d o ho
  · exact hobjects ▸ h.table
  · exact hobjects ▸ h.apart

/-- What a call on the object table makes. -/
theorem tableStep_created {order p : Nat} {c : TableCall} {t t' : Table}
    (hlegal : c.Legal order p t) (h : tableStep order p c t = .ok t') :
    t'.created = t.created ∨ ∃ o, Kernel.Fresh p t o ∧ t'.created = o :: t.created := by
  cases c with
  | create d o =>
    simp only [tableStep] at h
    cases hins : objtableInsert order t o with
    | none =>
      rw [hins] at h
      cases h
    | some r =>
      rw [hins] at h
      by_cases hr : r.1 = 0
      · simp only [if_pos hr] at h
        obtain rfl := Except.ok.inj h
        exact .inr ⟨o, hlegal.1, rfl⟩
      · simp only [if_neg hr] at h
        obtain rfl := Except.ok.inj h
        exact .inl rfl
  | pool o =>
    obtain rfl := Except.ok.inj h
    exact .inr ⟨o, hlegal, rfl⟩
  | objtableInit =>
    obtain rfl := Except.ok.inj h
    exact .inl rfl
  | pdInit =>
    simp only [tableStep] at h
    split at h
    · cases h
    · obtain rfl := Except.ok.inj h
      exact .inl rfl

/-- There is room for a thread when there is a number that no thread on a list has. -/
theorem Well.room (h : Well k lo idBits s live)
    (hn : ∃ n, lo ≤ n ∧ n < limit idBits ∧ ∀ d, ∀ t ∈ (s.pd d).threads, l4ThreadNo (s.id t) ≠ n) :
    Room lo idBits live := by
  obtain ⟨n, hlo, hlt, hfree⟩ := hn
  refine ⟨n, hlo, hlt, fun hmem => ?_⟩
  obtain ⟨x, hx, hxn⟩ := List.mem_map.mp hmem
  refine hfree _ x.2 (h.live_listed hx) ?_
  rw [h.ids x hx]
  exact hxn

/-- **The calls.**  Each of them returns, and keeps the invariant. -/
theorem callStep_sound (hv : ValidOrder k.order) (hlo : 0 < lo) (h : Sound k lo idBits s live)
    {c : Call} (hc : c.Legal k lo idBits s) :
    ∃ s' live', callStep k c s = .ok s' ∧ Sound k lo idBits s' live' ∧
      ∀ x ∈ live', x ∈ live ∨ Creates k c s x.1 := by
  obtain ⟨hwell, v, hrings⟩ := h
  cases c with
  | table c =>
    obtain ⟨objects, hstep, htable⟩ := (TInv.step hv hwell.table hc).exists_ok fun _ hno => hno
    refine ⟨s.setObjects objects, live, ?_, ⟨?_, v, rings_congr hrings rfl⟩, fun x hx => .inl hx⟩
    · rw [callStep, hstep]
    · exact hwell.setObjects htable (tableStep_created hc hstep)
  | domain self maxThreads node area =>
    obtain ⟨hmax, hself, hnew, harea⟩ := hc
    obtain ⟨r, s', hcreate, hcaps, hwell'⟩ := hwell.createDomain hv hmax hself hnew harea
    refine ⟨s', live, ?_, ⟨hwell', v, rings_congr hrings hcaps.links⟩, fun x hx => .inl hx⟩
    rw [callStep, hcreate]
    rfl
  | thread self node entry l4 =>
    obtain ⟨hself, hnode, hentry, hfresh, hl4, hroom⟩ := hc
    obtain ⟨o, ho⟩ := Option.ne_none_iff_exists'.mp hself
    obtain ⟨r, s', hcreate, -, hcases⟩ := hwell.createThread hlo (hwell.room hroom) ho hnode hentry hfresh hl4
    have hstep : callStep k (.thread self node entry l4) s = .ok s' := by
      rw [callStep, hcreate]
      rfl
    rcases hcases with ⟨-, hsame, hwell'⟩ | ⟨thread, id, -, rfl, hplaced, hwell'⟩
    · exact ⟨s', live, hstep, ⟨hwell', v, rings_congr hrings hsame.caps.links⟩, fun x hx => .inl hx⟩
    · refine ⟨s', _, hstep, ⟨hwell', v, rings_congr hrings hplaced.caps.links⟩, fun x hx => ?_⟩
      rcases List.mem_cons.mp hx with rfl | hold
      · exact .inr ⟨self, node, entry, l4, thread, s', rfl, hcreate, hwell'.ids _ List.mem_cons_self⟩
      · exact .inl hold
  | clist d array p =>
    obtain ⟨w, htable⟩ := hwell.table
    obtain ⟨m, hm, hiff⟩ := lookup_tells htable array
    by_cases hp : p = 0
    · have hadd : pdAddClist s.security d array p = .ok (s.security, 0) := by
        rw [pdAddClist, hm]
        exact if_pos hp
      refine ⟨s, live, ?_, ⟨hwell, v, hrings⟩, fun x hx => .inl hx⟩
      rw [callStep, hadd]
    · obtain ⟨hlies, hfresh⟩ := hc hp
      obtain ⟨o, rfl⟩ := Option.ne_none_iff_exists'.mp (hiff.mpr (.inl hlies))
      have hadd : pdAddClist s.security d array p =
          .ok ({ clistCreateBack s.security d p with
            data := Function.update s.security.data (.node p)
              ⟨array, wordAdd (wordSub o.end_ o.base) 1 / capSize⟩ }, p + 16) := by
        rw [pdAddClist, hm]
        exact if_neg hp
      have hstep : callStep k (.clist d array p) s = .ok { s with
          security := { clistCreateBack s.security d p with
            data := Function.update s.security.data (.node p)
              ⟨array, wordAdd (wordSub o.end_ o.base) 1 / capSize⟩ } } := by
        rw [callStep, hadd]
      exact ⟨_, live, hstep, ⟨hwell.security rfl rfl rfl, _,
        rings_congr (hrings.createBack (hfresh v hrings)) rfl⟩, fun x hx => .inl hx⟩
  | capability array i obj =>
    exact ⟨_, live, rfl, ⟨hwell.security rfl rfl rfl, v, rings_congr hrings rfl⟩, fun x hx => .inl hx⟩

/-! ### The messages -/

/-- A thread is deleted that is on a list; otherwise a null pointer is followed. -/
theorem killThread_spec (hm : k.m = 1) (hlo : 0 < lo) (h : Sound k lo idBits s live) (tid : Nat) :
    (∃ thread s', (∃ d, thread ∈ (s.pd d).threads) ∧ s.id thread = tid ∧
      killThread k tid s = .ok s' ∧ Removed thread s s' ∧
      Sound k lo idBits s' (live.filter fun x => x.1 ≠ tid)) ∨
    (∀ d, ∀ t ∈ (s.pd d).threads, s.id t ≠ tid) ∧ killThread k tid s = .error .null := by
  obtain ⟨hwell, v, hrings⟩ := h
  obtain ⟨thread, hlookup⟩ := hwell.orderly.returns tid
  rw [killThread, hlookup]
  by_cases hthread : thread = 0
  · refine .inr ⟨fun d t ht heq => ?_, if_pos hthread⟩
    have hne : t ≠ 0 := hwell.filed.ne_zero ((hwell.listed d t).mp ht).2
    have hfound := (hwell.orderly.found tid t hne).mpr ⟨heq, d, ht⟩
    rw [hlookup] at hfound
    exact hne ((Except.ok.inj hfound).symm.trans hthread)
  · obtain ⟨rfl, d, hd⟩ := (hwell.orderly.found tid thread hthread).mp hlookup
    have howner := hwell.orderly.owner d thread hd
    have hlisted : thread ∈ (s.pd (s.security.owner thread)).threads := by
      rw [howner]
      exact hd
    obtain ⟨s', hdelete, hremoved, hwell'⟩ := hwell.deleteThread hlo hlisted (.inl hm)
    exact .inl ⟨thread, s', ⟨d, hd⟩, rfl, hdelete, hremoved, hwell', v,
      rings_congr hrings hremoved.caps.links⟩

/-- **The messages.**  The loop stops, or the invariant is kept. -/
theorem serve_sound (fuel : Nat) (hm : k.m = 1) (hlo : 0 < lo) {srv : Server}
    (h : Sound k lo idBits srv.system live) (m : Message) :
    Ends Stops (fun r : Reply × Server => ∃ live', Sound k lo idBits r.2.system live' ∧ live' ⊆ live)
      (serve k fuel m srv) := by
  have hsame : ∃ live', Sound k lo idBits srv.system live' ∧ live' ⊆ live :=
    ⟨live, h, List.Subset.refl live⟩
  rw [serve]
  split
  · exact .error (.inr (.inr (.inl rfl)))
  split
  · cases hrun : pagefault k fuel m.partner (m.mr 1) m.tag srv.system with
    | ok item =>
      simp only [hrun]
      exact .ok hsame
    | error e =>
      simp only [hrun]
      refine .error ?_
      rcases pagefault_error h.1 hrun with rfl | rfl
      · exact .inl rfl
      · exact .inr (.inr (.inr rfl))
  split
  · simp only
    split
    · exact .error (.inr (.inr (.inl rfl)))
    · exact .ok hsame
  split
  · exact .ok hsame
  split
  · rcases killThread_spec hm hlo h (m.mr 1) with ⟨thread, s', -, -, hkill, -, hsound⟩ | ⟨-, hkill⟩
    · simp only [hkill]
      exact .ok ⟨_, hsound, List.filter_subset_self _⟩
    · simp only [hkill]
      exact .error (.inr (.inl rfl))
  · exact .error (.inl rfl)

/-! ### Runs -/

theorem startup_sound {myself : Nat} {old : List Nat} {pool : PagePool} {srv : Server}
    (hbits : idBits < 64) (hold : old.length = threadPdHashsize) (hpool : ∀ i, pool.grant i ≠ none)
    (h : startup idBits myself old pool = .ok srv) :
    Sound k (minThreadno myself) idBits srv.system [] ∧ 0 < minThreadno myself := by
  obtain ⟨table, hinit, hholds⟩ := Chained.hashInit_spec hashHash (k := 12) hold
  obtain ⟨bfl, hbfl, -⟩ := bflNew_spec numberOfKernelThreads
  rw [startup] at h
  by_cases hr : (rflInsertRange [] (minThreadno myself) (wordShl 1 idBits)).1 = .success
  · have hthreads : threadInit idBits myself =
        .ok ⟨(rflInsertRange [] (minThreadno myself) (wordShl 1 idBits)).2, hashInit 4096, []⟩ := by
      rw [threadInit]
      exact if_neg (by simp [hr])
    obtain ⟨hinv, hpos, -⟩ := threadInit_inv hbits hthreads
    rw [if_neg (by simp [hr]), show threadPdHashsize = 2 ^ 12 from rfl, hinit, hbfl] at h
    obtain rfl := Except.ok.inj h
    refine ⟨⟨?_, fun _ => [], ?_⟩, hpos⟩
    · constructor
      case filed => exact ⟨_, hinv, hholds⟩
      case listed => exact fun d t => iff_of_false List.not_mem_nil fun hlive => absurd hlive.2 List.not_mem_nil
      case awake =>
        intro d
        show (if d = 0 then PdState.active else .empty) ≠ .suspended
        split <;> simp
      case table => exact ⟨[], tinv_init hpool⟩
      all_goals simp [Table.init]
    · exact ⟨fun d => ⟨rfl, List.nodup_singleton _, rfl⟩, fun _ _ hx => absurd hx List.not_mem_nil,
        fun _ _ _ hx => absurd hx List.not_mem_nil⟩
  · rw [if_pos hr] at h
    cases h

/-- The thread with the identifier `tid` that an input makes. -/
def Input.Creates (k : Machine) (tid : Nat) (i : Input) (srv : Server) : Prop :=
  ∃ c, i = .call c ∧ Exec.Creates k c srv.system tid

/-- **One step.**  A call goes through; a message stops the loop or is served. -/
theorem step_sound (fuel : Nat) (hv : ValidOrder k.order) (hm : k.m = 1) (hlo : 0 < lo) {srv : Server} {i : Input}
    (h : Sound k lo idBits srv.system live) (hi : i.Legal k lo idBits srv) :
    Ends Stops (fun srv' => ∃ live', Sound k lo idBits srv'.system live' ∧
      ∀ x ∈ live', x ∈ live ∨ i.Creates k x.1 srv) (step k fuel i srv) := by
  cases i with
  | call c =>
    obtain ⟨s', live', hstep, hsound, hlive⟩ := callStep_sound hv hlo h hi
    rw [step, hstep]
    exact .ok ⟨live', hsound, fun x hx => (hlive x hx).imp_right fun hc => ⟨c, rfl, hc⟩⟩
  | message m =>
    rw [step]
    have hserve := serve_sound fuel hm hlo h m
    cases hr : serve k fuel m srv with
    | ok r =>
      rw [hr] at hserve
      obtain ⟨live', hsound, hsub⟩ : ∃ live', Sound k lo idBits r.2.system live' ∧ live' ⊆ live := by
        cases hserve with
        | ok hkept => exact hkept
      exact .ok ⟨live', hsound, fun x hx => .inl (hsub hx)⟩
    | error e =>
      rw [hr] at hserve
      cases hserve with
      | error he => exact .error he

/-- A state that a run reaches. -/
inductive Reached (k : Machine) (lo idBits fuel : Nat) : Server → Prop
  | start {myself : Nat} {old : List Nat} {pool : PagePool} {srv : Server} :
      lo = minThreadno myself → old.length = threadPdHashsize → (∀ i, pool.grant i ≠ none) →
      startup idBits myself old pool = .ok srv → Reached k lo idBits fuel srv
  | more {i : Input} {srv srv' : Server} :
      Reached k lo idBits fuel srv → i.Legal k lo idBits srv → step k fuel i srv = .ok srv' →
      Reached k lo idBits fuel srv'

/-- The invariant holds in every state that is reached. -/
theorem Reached.sound (hv : ValidOrder k.order) (hm : k.m = 1) (hbits : idBits < 64) {srv : Server}
    (h : Reached k lo idBits fuel srv) : 0 < lo ∧ ∃ live, Sound k lo idBits srv.system live := by
  induction h with
  | start hlo hold hpool hstart =>
    subst hlo
    obtain ⟨hsound, hpos⟩ := startup_sound (k := k) hbits hold hpool hstart
    exact ⟨hpos, [], hsound⟩
  | more _ hlegal hstep ih =>
    obtain ⟨hlo, live, hsound⟩ := ih
    have hends := step_sound fuel hv hm hlo hsound hlegal
    rw [hstep] at hends
    cases hends with
    | ok hkept => exact ⟨hlo, hkept.choose, hkept.choose_spec.1⟩

theorem Reached.run : ∀ {inputs : List Input} {srv srv' : Server}, Reached k lo idBits fuel srv →
    Along (step k fuel) (Input.Legal k lo idBits) inputs srv →
    runs (step k fuel) inputs srv = .ok srv' → Reached k lo idBits fuel srv' := by
  intro inputs
  induction inputs with
  | nil =>
    intro srv srv' h _ hrun
    obtain rfl := Except.ok.inj hrun
    exact h
  | cons i inputs ih =>
    intro srv srv' h hlegal hrun
    rw [runs] at hrun
    cases hstep : step k fuel i srv with
    | ok s₁ =>
      rw [hstep] at hrun
      exact ih (h.more hlegal.1 hstep) (hlegal.2 s₁ hstep) hrun
    | error e =>
      rw [hstep] at hrun
      cases hrun

end

/-! ### A session

A domain with one thread, which has a capability for its memory, prints a line and is deleted. -/

def amd64 : Machine := ⟨12, 255, 0x180000, 9, 1, by decide, by decide⟩

/-- What `sys$thread_init` leaves for thread numbers of 17 bits. -/
def quiet : Server :=
  { system :=
      { security := ⟨⟨4096, List.replicate 4096 0, fun _ => ⟨⟨0, 0⟩, 0⟩, []⟩, fun _ => 0,
          Table.init endlessPool, ⟨fun c => c, fun c => c⟩, fun _ => ⟨0, 0⟩, fun _ _ => 0⟩
        threadList := [⟨2, 2 ^ 17⟩]
        id := fun _ => 0
        utcb := fun _ => 0
        eas := fun _ => 0
        pd := fun d => ⟨if d = 0 then .active else .empty, [], [],
          (bflNew numberOfKernelThreads).toOption.getD ⟨0, 0, fun _ => 0#64⟩, none, 0, nilpage⟩ }
    string := fun _ => 0
    console := [] }

theorem quiet_eq : startup 17 0 (List.replicate 4096 0) endlessPool = .ok quiet := by
  have hinit : Chained.hashInit threadPdHashsize (List.replicate 4096 0) =
      .ok ⟨4096, List.replicate 4096 0, fun _ => ⟨⟨0, 0⟩, 0⟩, []⟩ := by
    rw [Chained.hashInit, if_neg (by decide)]
    refine (Chained.clear_cells 4096 (by rw [List.length_replicate])).trans ?_
    rw [List.drop_of_length_le (by rw [List.length_replicate]), List.append_nil]
    rfl
  obtain ⟨bfl, hbfl, -⟩ := bflNew_spec numberOfKernelThreads
  rw [startup, if_neg (by decide), hinit, hbfl, quiet, hbfl]
  rfl

/-- The state after an input that goes through. -/
def next (i : Input) (srv : Server) : Server :=
  match step amd64 50 i srv with
  | .ok srv' => srv'
  | .error _ => srv

theorem next_eq {i : Input} {srv : Server} (h : (step amd64 50 i srv).isOk = true) :
    step amd64 50 i srv = .ok (next i srv) := by
  rw [next]
  cases hs : step amd64 50 i srv with
  | ok srv' => rfl
  | error e =>
    rw [hs] at h
    cases h

theorem next_sound {i : Input} {srv : Server} (h : ∃ live, Sound amd64 2 17 srv.system live)
    (hi : i.Legal amd64 2 17 srv) (hok : (step amd64 50 i srv).isOk = true) :
    ∃ live, Sound amd64 2 17 (next i srv).system live := by
  obtain ⟨live, h⟩ := h
  have hstep := step_sound 50 deployed_order rfl (by decide) h hi
  rw [next_eq hok] at hstep
  cases hstep with
  | ok hkept => exact ⟨hkept.choose, hkept.choose_spec.1⟩

theorem table_legal {c : TableCall} {srv : Server}
    (h : c.Legal amd64.order amd64.list srv.system.security.objects) :
    (Input.call (.table c)).Legal amd64 2 17 srv := h

def makeDomain : Input := .call (.domain (some 0) 2 (some 5) (some ⟨0x40000200, 0x400000, 0x400fff⟩))

def makePool : Input := .call (.table (.pool ⟨0x40000100, 0x40000000, 0x40000fff⟩))

def makeHeap : Input := .call (.table (.create 5 ⟨0x40000300, 0x500000, 0x5fffff⟩))

def makeClist : Input := .call (.table (.create 5 ⟨0x40000400, 0x600000, 0x600fff⟩))

def makeCapability : Input := .call (.capability 0x600000 0 0x40000300)

def addClist : Input := .call (.clist 5 0x600000 0xc000)

def makeThread : Input := .call (.thread 5 (some 0xb000) 0xa000 ⟨true, true, .done⟩)

def session : List Input :=
  [makeDomain, makePool, makeHeap, makeClist, makeCapability, addClist, makeThread]

theorem session_legal (ms : List Message) :
    Along (step amd64 50) (Input.Legal amd64 2 17) (session ++ ms.map .message) quiet := by
  have h₀ : ∃ live, Sound amd64 2 17 quiet.system live := by
    obtain ⟨hsound, -⟩ := startup_sound (by decide) (by rw [List.length_replicate]; rfl)
      endlessPool_grants quiet_eq
    exact ⟨[], hsound⟩
  have hdomain : makeDomain.Legal amd64 2 17 quiet := by
    refine ⟨by decide, fun p hp => .inl ?_, fun new hnew => ?_, fun new o hnew ho => ?_⟩
    · exact (Option.some.inj hp).symm
    · obtain rfl := Option.some.inj hnew
      rintro (hzero | ⟨p, hp⟩)
      · cases hzero
      · exact absurd hp List.not_mem_nil
    · obtain rfl := Option.some.inj hnew
      obtain rfl := Option.some.inj ho
      refine ⟨by decide +kernel, fun fpageSize hsize => ?_⟩
      rw [show utcbSectionSize amd64 (if (2 : Int) = 0 then maxThreadsPerApd else 2).toNat = some 4096 by
        decide +kernel] at hsize
      obtain rfl := Option.some.inj hsize
      decide
  have ok₀ : (step amd64 50 makeDomain quiet).isOk = true := by decide +kernel
  have h₁ := next_sound h₀ hdomain ok₀
  have hpool : makePool.Legal amd64 2 17 (next makeDomain quiet) :=
    table_legal (by decide +kernel)
  have ok₁ : (step amd64 50 makePool (next makeDomain quiet)).isOk = true := by decide +kernel
  have h₂ := next_sound h₁ hpool ok₁
  have hheap : makeHeap.Legal amd64 2 17 (next makePool (next makeDomain quiet)) :=
    table_legal (by decide +kernel)
  have ok₂ : (step amd64 50 makeHeap (next makePool (next makeDomain quiet))).isOk = true := by
    decide +kernel
  have h₃ := next_sound h₂ hheap ok₂
  generalize hs₃ : next makeHeap (next makePool (next makeDomain quiet)) = s₃ at h₃
  have hclist : makeClist.Legal amd64 2 17 s₃ := by
    rw [← hs₃]
    exact table_legal (by decide +kernel)
  have ok₃ : (step amd64 50 makeClist s₃).isOk = true := by
    rw [← hs₃]
    decide +kernel
  have h₄ := next_sound h₃ hclist ok₃
  have ok₄ : (step amd64 50 makeCapability (next makeClist s₃)).isOk = true := rfl
  have hcapability : makeCapability.Legal amd64 2 17 (next makeClist s₃) := trivial
  have h₅ := next_sound h₄ hcapability ok₄
  generalize hs₅ : next makeCapability (next makeClist s₃) = s₅ at h₅
  have hadd : addClist.Legal amd64 2 17 s₅ := by
    refine fun _ => ⟨?_, fun v hv d hmem => ?_⟩
    · rw [← hs₅, ← hs₃]
      exact ⟨⟨0x40000400, 0x600000, 0x600fff⟩, by decide +kernel, by decide, by decide⟩
    · have hempty : Hangs s₅.system.security.links (.clists d) [] := by
        rw [← hs₅, ← hs₃]
        exact ⟨rfl, List.nodup_singleton _, rfl⟩
      rw [(hv.hangs d).unique hempty] at hmem
      exact absurd hmem List.not_mem_nil
  have ok₅ : (step amd64 50 addClist s₅).isOk = true := by
    rw [← hs₅, ← hs₃]
    decide +kernel
  have h₆ := next_sound h₅ hadd ok₅
  generalize hs₆ : next addClist s₅ = s₆ at h₆
  have hthread : makeThread.Legal amd64 2 17 s₆ := by
    obtain ⟨live, hsound⟩ := h₆
    refine ⟨?_, fun thread ht => ⟨?_, fun d hd => ?_⟩, by decide, ?_, ⟨rfl, rfl, by decide⟩, ?_⟩
    · rw [← hs₆, ← hs₅, ← hs₃]
      decide +kernel
    · obtain rfl := Option.some.inj ht
      decide
    · obtain rfl := Option.some.inj ht
      obtain rfl := hsound.1.orderly.owner d _ hd
      revert hd
      rw [← hs₆, ← hs₅, ← hs₃]
      decide +kernel
    · rw [← hs₆, ← hs₅, ← hs₃]
      decide +kernel
    · refine ⟨2, le_rfl, by decide, ((hsound.1.orderly.numbers 2).mp ⟨⟨2, 2 ^ 17⟩, ?_, le_rfl, by decide⟩).2.2⟩
      rw [← hs₆, ← hs₅, ← hs₃]
      decide +kernel
  refine .cons (next_eq ok₀) hdomain (.cons (next_eq ok₁) hpool (.cons (next_eq ok₂) hheap ?_))
  rw [hs₃]
  refine .cons (next_eq ok₃) hclist (.cons (next_eq ok₄) hcapability ?_)
  rw [hs₅]
  refine .cons (next_eq ok₅) hadd ?_
  rw [hs₆]
  refine ⟨hthread, fun srv' _ => Along.of_forall (fun i hi _ => ?_) srv'⟩
  obtain ⟨m, -, rfl⟩ := List.mem_map.mp hi
  trivial

/-- The state after the calls. -/
theorem session_reached : ∃ srv, runs (step amd64 50) session quiet = .ok srv ∧
    Reached amd64 2 17 50 srv := by
  have hok : (runs (step amd64 50) session quiet).isOk = true := by decide +kernel
  cases hrun : runs (step amd64 50) session quiet with
  | ok srv =>
    have hstart : Reached amd64 2 17 50 quiet :=
      .start (by decide) (by rw [List.length_replicate]; rfl) endlessPool_grants quiet_eq
    have hlegal := session_legal []
    rw [List.map_nil, List.append_nil] at hlegal
    exact ⟨srv, rfl, hstart.run hlegal hrun⟩
  | error e =>
    rw [hrun] at hok
    cases hok

/-! ### The result -/

/-- A write to `0x500123` -/
def badAccess : Message := ⟨8589934593, l4Pagefault + 6 * 2 ^ 16, fun _ => 0x500123, []⟩

def killItself : Message := ⟨8589934593, syscallKillThread * 2 ^ 16, fun _ => 8589934593, []⟩

/-- A page fault, a line that is printed, the end of `main`, and the end of the thread. -/
def goodbye : List Message :=
  [badAccess, ⟨8589934593, syscallPrint * 2 ^ 16, fun _ => 2 * 2 ^ 10, [111, 107]⟩,
    ⟨8589934593, syscallExitValue * 2 ^ 16, fun _ => 0, []⟩, killItself]

end FreeVMS.Exec
