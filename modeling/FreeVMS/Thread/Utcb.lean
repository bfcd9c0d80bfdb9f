import FreeVMS.Thread.BitList
import FreeVMS.Lib.Run
import Mathlib.Data.List.Nodup

/-!
# The UTCB slots of a protection domain

`sys$pd_create_thread` takes a number from `local_threadno` and gives the thread the slot of that
number in the UTCB area; `sys$thread_delete` finds the number again from the address of the
slot.

The size of a slot is a multiple of a power of two, and only the power of two is divided out at
deletion.  A protection domain in the state `pd_suspended` is activated, and its first thread
thrown away, by a creation that fails.
-/

namespace FreeVMS.Thread

open Alloc Run

/-- The geometry that the kernel reports (`a` and `m` of `UtcbAreaInfo`), and the area of a
    protection domain: room for `maxThreads` slots within the address space. -/
structure UtcbArea where
  a : Nat
  m : Nat
  maxThreads : Nat
  base : Nat
  multiple : 1 ≤ m
  shift : a < 64
  count : maxThreads < 2 ^ 31
  fits : base + m * 2 ^ a * maxThreads ≤ wordSize

/-- `utcb_size`, as `L4_UtcbSize` computes it. -/
def UtcbArea.size (u : UtcbArea) : Nat := u.m * 2 ^ u.a

inductive PdState where
  | empty
  | active
  | suspended
deriving DecidableEq, Repr

/-- The part of `struct thread` that belongs to its protection domain; `addr` is where it is. -/
structure UserThread where
  addr : Nat
  utcb : Nat
deriving DecidableEq, Repr

/-- The part of `struct pd` that threads are created in. -/
structure Pd where
  state : PdState
  threads : List UserThread
  localThreadno : Bfl

/-- `sys$pd_setup`. -/
def pdSetup (maxThreads : Nat) : Except Fault Pd :=
  (bflNew maxThreads).map fun bfl => ⟨.empty, [], bfl⟩

/-- How `sys$thread_setup` fares: there is no thread identifier left, the kernel has run out of
    memory, or all goes well. -/
inductive Setup where
  | noId
  | noMem
  | done
deriving DecidableEq, Repr

/-- `sys$thread_setup`: what it returns, and the state of the protection domain afterwards. -/
def threadSetup (o : Setup) (state : PdState) : Int × PdState :=
  match state with
  | .suspended => (1, .active)
  | _ =>
      match o with
      | .noId => (1, state)
      | .noMem => (1, state)
      | .done => (0, .active)

/-- `sys$thread_list_delete`. -/
def threadListDelete (threads : List UserThread) (addr : Nat) : List UserThread :=
  threads.filter fun t => t.addr ≠ addr

section Code

variable (u : UtcbArea)

/-- The end of `sys$pd_create_thread`, from the call of `sys$thread_setup` on. -/
def pdFinish (o : Setup) (pd : Pd) (thread : Nat) (localTid : Nat) :
    Except Fault (Option Nat × Pd) :=
  let r := threadSetup o pd.state
  if r.1 ≠ 0 then
    if r.2 ≠ .suspended then
      (bflFree pd.localThreadno localTid).map fun bfl =>
        (none, ⟨r.2, threadListDelete pd.threads thread, bfl⟩)
    else .ok (none, { pd with state := r.2 })
  else .ok (some thread, { pd with state := .active })

/-- `sys$pd_create_thread` in the states `pd_empty` and `pd_active`; `node` is what the heap returns
    for the new thread. -/
def pdCreateNew (node : Option Nat) (o : Setup) (pd : Pd) : Except Fault (Option Nat × Pd) :=
  match node with
  | none => .ok (none, pd)
  | some addr =>
      let r := bflAlloc pd.localThreadno
      match r.1 with
      | none =>
          .ok (none, { pd with
            threads := threadListDelete (pd.threads ++ [⟨addr, 0⟩]) addr
            localThreadno := r.2 })
      | some localTid =>
          let utcb := wordAdd u.base (u.size * localTid % wordSize)
          pdFinish o { pd with
            threads := pd.threads ++ [⟨addr, utcb⟩]
            localThreadno := r.2 } addr localTid

/-- `sys$pd_create_thread`; nothing for `NULL`. -/
def pdCreateThread (node : Option Nat) (o : Setup) (pd : Pd) : Except Fault (Option Nat × Pd) :=
  match pd.state with
  | .empty => pdCreateNew u node o pd
  | .active => pdCreateNew u node o pd
  | .suspended =>
      match pd.threads with
      | [] => .error .outOfBounds
      | thread :: _ => pdFinish o pd thread.addr 0

/-- `sys$thread_delete`. -/
def threadDelete (thread : UserThread) (pd : Pd) : Except Fault Pd :=
  (bflFree pd.localThreadno (wordShr (wordSub thread.utcb u.base) u.a)).map fun bfl =>
    { pd with threads := threadListDelete pd.threads thread.addr, localThreadno := bfl }

end Code

/-- What happens to a protection domain: a thread is created or deleted, or its state is set from
    outside. -/
inductive PdCall where
  | create (node : Option Nat) (o : Setup)
  | delete (thread : UserThread)
  | setState (state : PdState)

def pdStep (u : UtcbArea) (c : PdCall) (pd : Pd) : Except Fault Pd :=
  match c with
  | .create node o => (pdCreateThread u node o pd).map Prod.snd
  | .delete thread => threadDelete u thread pd
  | .setState state => .ok { pd with state := state }

/-- The heap returns memory that is not in use, and a thread is deleted that exists. -/
def PdCall.Legal (c : PdCall) (pd : Pd) : Prop :=
  match c with
  | .create node _ => ∀ t ∈ pd.threads, node ≠ some t.addr
  | .delete thread => thread ∈ pd.threads
  | .setState _ => True

section

variable (u : UtcbArea)

/-- The slot of a number. -/
def UtcbArea.slot (n : Nat) : Nat := u.base + u.size * n

/-- What the numbers are for: slots are disjoint and inside the area, and a number is free exactly
    when no thread has its slot. -/
structure SlotsWell (pd : Pd) : Prop where
  disjoint : pd.threads.Pairwise fun t t' =>
    t.utcb + u.size ≤ t'.utcb ∨ t'.utcb + u.size ≤ t.utcb
  inside : ∀ t ∈ pd.threads, u.base ≤ t.utcb ∧ t.utcb + u.size ≤ u.base + u.size * u.maxThreads
  complement : ∀ n, pd.localThreadno.Free n ↔
    n < u.maxThreads ∧ ∀ t ∈ pd.threads, t.utcb ≠ u.slot n

/-- A call returns and leaves the slots well, and a creation that returns `NULL` changes nothing. -/
def SlotsKept (c : PdCall) (pd : Pd) : Prop :=
  match c with
  | .create node o => ∃ r pd', pdCreateThread u node o pd = .ok (r, pd') ∧ SlotsWell u pd' ∧
      (r = none → pd' = pd)
  | .delete thread => ∃ pd', threadDelete u thread pd = .ok pd' ∧ SlotsWell u pd'
  | .setState state => SlotsWell u { pd with state := state }

/-- No creation in the state `pd_suspended`, and no deletion of a thread beyond the first slot
    unless the size of a slot is a power of two. -/
def Sized (c : PdCall) (pd : Pd) : Prop :=
  match c with
  | .create _ _ => pd.state ≠ .suspended
  | .delete thread => u.m = 1 ∨ thread.utcb = u.base
  | .setState _ => True

/-- The numbers of the threads. -/
structure PdInv (pd : Pd) : Prop where
  bounded : pd.localThreadno.len = u.maxThreads / 64 + 1
  addrs : (pd.threads.map UserThread.addr).Nodup
  slots : ∃ ns : List Nat, pd.threads.map UserThread.utcb = ns.map u.slot ∧ ns.Nodup ∧
    (∀ n ∈ ns, n < u.maxThreads) ∧
    ∀ n, pd.localThreadno.Free n ↔ n < u.maxThreads ∧ n ∉ ns

end

section

variable {u : UtcbArea} {pd : Pd} {thread t : UserThread} {addr n : Nat} {o : Setup}

theorem UtcbArea.size_pos (u : UtcbArea) : 0 < u.size :=
  Nat.mul_pos u.multiple (Nat.two_pow_pos u.a)

theorem UtcbArea.slot_inj {n n' : Nat} (h : u.slot n = u.slot n') : n = n' :=
  Nat.eq_of_mul_eq_mul_left u.size_pos (Nat.add_left_cancel h)

theorem UtcbArea.slot_apart {n n' : Nat} (h : n < n') : u.slot n + u.size ≤ u.slot n' := by
  have hmul : u.size * (n + 1) ≤ u.size * n' := Nat.mul_le_mul_left _ h
  simp only [UtcbArea.slot]
  rw [Nat.mul_succ] at hmul
  omega

/-- The slot of a number of the area, as it is computed. -/
theorem UtcbArea.slot_eq (hn : n < u.maxThreads) :
    wordAdd u.base (u.size * n % wordSize) = u.slot n ∧ u.slot n < wordSize := by
  have hfits : u.slot n + u.size ≤ wordSize := by
    have hle := u.fits
    have hmul : u.size * (n + 1) ≤ u.size * u.maxThreads := Nat.mul_le_mul_left _ hn
    simp only [UtcbArea.slot, UtcbArea.size] at *
    rw [Nat.mul_succ] at hmul
    omega
  have hpos := u.size_pos
  have hlt : u.slot n < wordSize := by omega
  refine ⟨?_, hlt⟩
  rw [UtcbArea.slot] at *
  rw [Nat.mod_eq_of_lt (by omega), wordAdd, Nat.mod_eq_of_lt hlt]

/-- The number that is freed for the slot of `n`. -/
theorem UtcbArea.number_eq (hn : n < u.maxThreads) :
    wordShr (wordSub (u.slot n) u.base) u.a = u.m * n := by
  have hlt := (UtcbArea.slot_eq hn).2
  have hbase : u.base < wordSize := by
    rw [UtcbArea.slot] at hlt
    omega
  have hsub : wordSub (u.slot n) u.base = u.size * n := by
    rw [wordSub, UtcbArea.slot, show u.base + u.size * n + (wordSize - u.base) =
      u.size * n + wordSize by omega, Nat.add_mod_right]
    rw [UtcbArea.slot] at hlt
    exact Nat.mod_eq_of_lt (by omega)
  rw [hsub, wordShr, Nat.mod_eq_of_lt u.shift, UtcbArea.size, Nat.mul_assoc, Nat.mul_comm (2 ^ u.a) n,
    ← Nat.mul_assoc, Nat.mul_div_cancel _ (Nat.two_pow_pos u.a)]

/-- The invariant says what the numbers are for. -/
theorem PdInv.well (h : PdInv u pd) : SlotsWell u pd := by
  obtain ⟨ns, hmap, hnodup, hlt, hfree⟩ := h.slots
  have hslot : ∀ t ∈ pd.threads, ∃ n ∈ ns, u.slot n = t.utcb := by
    intro t ht
    have hmem : t.utcb ∈ ns.map u.slot := hmap ▸ List.mem_map_of_mem ht
    exact List.mem_map.mp hmem
  constructor
  case disjoint =>
    have hpair : (pd.threads.map UserThread.utcb).Pairwise fun x y =>
        x + u.size ≤ y ∨ y + u.size ≤ x := by
      rw [hmap, List.pairwise_map]
      refine hnodup.imp fun hne => ?_
      rcases Nat.lt_or_gt_of_ne hne with hlt | hgt
      · exact .inl (UtcbArea.slot_apart hlt)
      · exact .inr (UtcbArea.slot_apart hgt)
    exact List.pairwise_map.mp hpair
  case inside =>
    intro t ht
    obtain ⟨n, hn, heq⟩ := hslot t ht
    rw [← heq]
    exact ⟨Nat.le_add_right _ _, UtcbArea.slot_apart (hlt n hn)⟩
  case complement =>
    intro n
    rw [hfree]
    constructor
    · rintro ⟨hn, hnot⟩
      refine ⟨hn, fun t ht heq => ?_⟩
      obtain ⟨n', hn', heq'⟩ := hslot t ht
      exact hnot (UtcbArea.slot_inj (heq'.trans heq) ▸ hn')
    · rintro ⟨hn, hnone⟩
      refine ⟨hn, fun hmem => ?_⟩
      have hutcb : u.slot n ∈ pd.threads.map UserThread.utcb := hmap ▸ List.mem_map_of_mem hmem
      obtain ⟨t, ht, heq⟩ := List.mem_map.mp hutcb
      exact hnone t ht heq

theorem PdInv.word (h : PdInv u pd) (hn : n < u.maxThreads) : n / 64 < pd.localThreadno.len := by
  have hlen := h.bounded
  omega

theorem threadListDelete_append (h : ∀ t ∈ pd.threads, t.addr ≠ addr) (utcb : Nat) :
    threadListDelete (pd.threads ++ [⟨addr, utcb⟩]) addr = pd.threads := by
  simpa [threadListDelete] using h

theorem pdCreateThread_eq {node : Option Nat} (h : pd.state ≠ .suspended) :
    pdCreateThread u node o pd = pdCreateNew u node o pd := by
  rw [pdCreateThread]
  cases hs : pd.state with
  | empty => rfl
  | active => rfl
  | suspended => exact absurd hs h

/-- A thread that is set up outside of the state `pd_suspended`. -/
theorem threadSetup_eq {state : PdState} (h : state ≠ .suspended) :
    threadSetup o state = if o = .done then (0, .active) else (1, state) := by
  cases state with
  | empty => cases o <;> rfl
  | active => cases o <;> rfl
  | suspended => exact absurd rfl h

/-- **Creation.**  Outside of the state `pd_suspended` a creation keeps the invariant, and one that
    fails changes nothing. -/
theorem PdInv.create (h : PdInv u pd) {node : Option Nat} (hstate : pd.state ≠ .suspended)
    (hnew : ∀ t ∈ pd.threads, node ≠ some t.addr) :
    ∃ r pd', pdCreateThread u node o pd = .ok (r, pd') ∧ PdInv u pd' ∧ (r = none → pd' = pd) := by
  rw [pdCreateThread_eq hstate]
  cases node with
  | none => exact ⟨none, pd, rfl, h, fun _ => rfl⟩
  | some addr =>
    have hfresh : ∀ t ∈ pd.threads, t.addr ≠ addr := fun t ht heq => hnew t ht (by rw [heq])
    obtain ⟨ns, hmap, hnodup, hlt, hfree⟩ := h.slots
    have hbounded : pd.localThreadno.Bounded := fun n hn => h.word ((hfree n).mp hn).1
    simp only [pdCreateNew]
    rcases bflAlloc_spec hbounded with ⟨n, hn, htook⟩ | ⟨hnone, -⟩
    · obtain ⟨hnlt, hnot⟩ := (hfree n).mp htook.free
      simp only [hn, (UtcbArea.slot_eq hnlt).1, pdFinish, threadSetup_eq hstate]
      by_cases ho : o = .done
      · simp only [if_pos ho, ne_eq, not_true_eq_false, if_false]
        refine ⟨some addr, _, rfl, ⟨?_, ?_, ns ++ [n], ?_, ?_, ?_, ?_⟩, fun hr => nomatch hr⟩
        · exact htook.len_eq.trans h.bounded
        · simp only [List.map_append, List.map_cons, List.map_nil]
          refine h.addrs.append (List.nodup_singleton _) ?_
          simpa using hfresh
        · simp [hmap]
        · exact hnodup.append (List.nodup_singleton n) (by simpa using hnot)
        · intro m hm
          rcases List.mem_append.mp hm with hm | hm
          · exact hlt m hm
          · rwa [List.mem_singleton.mp hm]
        · intro m
          simp only [htook.free_iff, hfree, List.mem_append, List.mem_singleton, not_or]
          tauto
      · simp only [if_neg ho, ne_eq, hstate, not_false_eq_true, if_true, one_ne_zero]
        rw [htook.undo (h.word hnlt), threadListDelete_append hfresh]
        exact ⟨none, pd, rfl, h, fun _ => rfl⟩
    · simp only [hnone, threadListDelete_append hfresh]
      exact ⟨none, pd, rfl, h, fun _ => rfl⟩

/-- The other threads after one has been deleted, known by their addresses or by their slots. -/
theorem PdInv.delete_eq (h : PdInv u pd) (ht : thread ∈ pd.threads) :
    threadListDelete pd.threads thread.addr =
      pd.threads.filter fun t => t.utcb ≠ thread.utcb := by
  obtain ⟨ns, hmap, hnodup, -⟩ := h.slots
  have hutcb : (pd.threads.map UserThread.utcb).Nodup := by
    rw [hmap]
    exact hnodup.map fun _ _ => UtcbArea.slot_inj
  apply List.filter_congr
  intro t ht'
  have hiff : t.addr = thread.addr ↔ t.utcb = thread.utcb :=
    ⟨fun heq => congrArg _ (List.inj_on_of_nodup_map h.addrs ht' ht heq),
      fun heq => congrArg _ (List.inj_on_of_nodup_map hutcb ht' ht heq)⟩
  simp [hiff]

/-- **Deletion.**  A deletion that frees the number of the thread keeps the invariant. -/
theorem PdInv.delete (h : PdInv u pd) (ht : thread ∈ pd.threads)
    (hsize : u.m = 1 ∨ thread.utcb = u.base) :
    ∃ pd', threadDelete u thread pd = .ok pd' ∧ PdInv u pd' := by
  obtain ⟨ns, hmap, hnodup, hlt, hfree⟩ := h.slots
  have hutcb : thread.utcb ∈ ns.map u.slot := hmap ▸ List.mem_map_of_mem ht
  obtain ⟨n, hn, hslot⟩ := List.mem_map.mp hutcb
  have hnumber : u.m * n = n := by
    rcases hsize with hm | hbase
    · rw [hm, Nat.one_mul]
    · have hzero : n = 0 := by
        apply UtcbArea.slot_inj (u := u)
        rw [hslot, hbase]
        rfl
      rw [hzero, Nat.mul_zero]
  obtain ⟨bfl, hbfl, hlen, -, hfree'⟩ := bflFree_spec (h.word (hlt n hn))
  have hthreads : (threadListDelete pd.threads thread.addr).map UserThread.utcb =
      (ns.filter fun m => m ≠ n).map u.slot := by
    rw [h.delete_eq ht]
    have hcomm : (pd.threads.filter fun t => t.utcb ≠ thread.utcb).map UserThread.utcb =
        (pd.threads.map UserThread.utcb).filter fun x => x ≠ thread.utcb := by
      rw [List.filter_map]
      rfl
    rw [hcomm, hmap, List.filter_map]
    congr 1
    apply List.filter_congr
    intro m _
    have hiff : u.slot m = u.slot n ↔ m = n := ⟨UtcbArea.slot_inj, congrArg _⟩
    simp [← hslot, hiff]
  refine ⟨{ pd with threads := threadListDelete pd.threads thread.addr, localThreadno := bfl }, ?_,
    hlen.trans h.bounded, ?_, _, hthreads, hnodup.filter _, ?_, ?_⟩
  · rw [threadDelete, ← hslot, UtcbArea.number_eq (hlt n hn), hnumber, hbfl]
    rfl
  · exact h.addrs.sublist (List.filter_sublist.map _)
  · exact fun m hm => hlt m (List.mem_filter.mp hm).1
  · intro m
    simp only [hfree', hfree, List.mem_filter, decide_eq_true_eq]
    constructor
    · rintro (rfl | ⟨h1, h2⟩)
      · exact ⟨hlt m hn, fun hm => hm.2 rfl⟩
      · exact ⟨h1, fun hm => h2 hm.1⟩
    · rintro ⟨h1, h2⟩
      by_cases hm : m = n
      · exact .inl hm
      · exact .inr ⟨h1, fun hmem => h2 ⟨hmem, hm⟩⟩

/-- **Lost slot.**  Otherwise the number of the thread is lost. -/
theorem PdInv.delete_lost (h : PdInv u pd) (ht : thread ∈ pd.threads) (hm : u.m ≠ 1)
    (hne : thread.utcb ≠ u.base) : ¬ SlotsKept u (.delete thread) pd := by
  rintro ⟨pd', hdel, hwell⟩
  obtain ⟨ns, hmap, hnodup, hlt, hfree⟩ := h.slots
  have hutcb : thread.utcb ∈ ns.map u.slot := hmap ▸ List.mem_map_of_mem ht
  obtain ⟨n, hn, hslot⟩ := List.mem_map.mp hutcb
  have hpos : n ≠ 0 := by
    rintro rfl
    exact hne hslot.symm
  have hnumber : u.m * n ≠ n := by
    have hone := u.multiple
    have hmul : 2 * n ≤ u.m * n := Nat.mul_le_mul_right _ (by omega)
    omega
  rw [threadDelete, ← hslot, UtcbArea.number_eq (hlt n hn)] at hdel
  by_cases hword : u.m * n / 64 < pd.localThreadno.len
  · obtain ⟨bfl, hbfl, -, -, hfree'⟩ := bflFree_spec hword
    rw [hbfl] at hdel
    obtain rfl := Except.ok.inj hdel
    have hlost : bfl.Free n := by
      refine (hwell.complement n).mpr ⟨hlt n hn, fun t ht' heq => ?_⟩
      rw [h.delete_eq ht] at ht'
      have hother := (List.mem_filter.mp ht').2
      simp only [ne_eq, decide_not, Bool.not_eq_true', decide_eq_false_iff_not] at hother
      exact hother (heq.trans hslot)
    rcases (hfree' n).mp hlost with heq | hn'
    · exact hnumber heq.symm
    · exact ((hfree n).mp hn').2 hn
  · have hpanic : bflFree pd.localThreadno (u.m * n) = .error .panic := if_pos (Nat.not_lt.mp hword)
    rw [hpanic] at hdel
    exact nomatch hdel

/-- **Thrown away.**  A creation in the state `pd_suspended` returns `NULL` and changes the state. -/
theorem PdInv.create_suspended (h : PdInv u pd) {node : Option Nat} (hs : pd.state = .suspended) :
    ¬ SlotsKept u (.create node o) pd := by
  rintro ⟨r, pd', hcreate, -, hnull⟩
  simp only [pdCreateThread, hs] at hcreate
  cases hthreads : pd.threads with
  | nil =>
    rw [hthreads] at hcreate
    exact nomatch hcreate
  | cons t rest =>
    simp only [hthreads, pdFinish, hs, threadSetup] at hcreate
    have hword : 0 / 64 < pd.localThreadno.len := by
      have hlen := h.bounded
      omega
    obtain ⟨bfl, hbfl, -⟩ := bflFree_spec hword
    rw [hbfl] at hcreate
    obtain ⟨rfl, rfl⟩ := Prod.mk.inj (Except.ok.inj hcreate)
    have hstate := congrArg Pd.state (hnull rfl)
    rw [hs] at hstate
    exact nomatch hstate

/-- A call that keeps the slots returns, and leaves them well. -/
theorem SlotsKept.ends {c : PdCall} (h : SlotsKept u c pd) :
    Ends (fun _ => False) (SlotsWell u) (pdStep u c pd) := by
  cases c with
  | create node o =>
    obtain ⟨r, pd', hcreate, hwell, -⟩ := h
    rw [pdStep, hcreate]
    exact .ok hwell
  | delete thread =>
    obtain ⟨pd', hdelete, hwell⟩ := h
    rw [pdStep, hdelete]
    exact .ok hwell
  | setState state => exact .ok h

theorem pdSetup_inv (h : pdSetup u.maxThreads = .ok pd) : PdInv u pd := by
  obtain ⟨bfl, hnew, hlen, hfree⟩ := bflNew_spec u.maxThreads
  rw [pdSetup, hnew] at h
  obtain rfl := Except.ok.inj h
  exact ⟨hlen, List.nodup_nil, [], rfl, List.nodup_nil, by simp, by simpa using hfree⟩

/-- A step that meets the condition keeps the invariant. -/
theorem PdInv.step {c : PdCall} {pd' : Pd} (h : PdInv u pd) (hl : c.Legal pd) (hs : Sized u c pd)
    (hstep : pdStep u c pd = .ok pd') : PdInv u pd' := by
  cases c with
  | create node o =>
    obtain ⟨r, pd'', hcreate, hinv, -⟩ := h.create hs hl
    rw [pdStep, hcreate] at hstep
    obtain rfl := Except.ok.inj hstep
    exact hinv
  | delete thread =>
    obtain ⟨pd'', hdelete, hinv⟩ := h.delete hl hs
    rw [pdStep, hdelete] at hstep
    obtain rfl := Except.ok.inj hstep
    exact hinv
  | setState state =>
    obtain rfl := Except.ok.inj hstep
    exact ⟨h.bounded, h.addrs, h.slots⟩

/-- **UTCB slots.**  The calls on a new protection domain keep the slots exactly as long as each of
    them meets the condition. -/
theorem slots_kept_iff (hsetup : pdSetup u.maxThreads = .ok pd) (calls : List PdCall)
    (hlegal : Along (pdStep u) PdCall.Legal calls pd) :
    (SlotsWell u pd ∧ Along (pdStep u) (SlotsKept u) calls pd) ↔
      Along (pdStep u) (Sized u) calls pd := by
  have hinv := pdSetup_inv hsetup
  rw [and_iff_right hinv.well]
  refine Along.congr (I := PdInv u) ?_ (fun c pd pd' h hl hs => h.step hl hs) calls pd hinv hlegal
  intro c pd h hl
  cases c with
  | create node o =>
    constructor
    · exact fun hkept hs => h.create_suspended hs hkept
    · intro hs
      obtain ⟨r, pd', hcreate, hinv', hnull⟩ := h.create hs hl
      exact ⟨r, pd', hcreate, hinv'.well, hnull⟩
  | delete thread =>
    constructor
    · intro hkept
      by_contra hcon
      rw [Sized, not_or] at hcon
      exact h.delete_lost hl hcon.1 hcon.2 hkept
    · intro hs
      obtain ⟨pd', hdelete, hinv'⟩ := h.delete hl hs
      exact ⟨pd', hdelete, hinv'.well⟩
  | setState state =>
    have hinv' : PdInv u { pd with state := state } := ⟨h.bounded, h.addrs, h.slots⟩
    exact iff_of_true hinv'.well trivial

end

instance (c : PdCall) (pd : Pd) : Decidable (c.Legal pd) :=
  match c with
  | .create node _ => inferInstanceAs (Decidable (∀ t ∈ pd.threads, node ≠ some t.addr))
  | .delete thread => inferInstanceAs (Decidable (thread ∈ pd.threads))
  | .setState _ => isTrue trivial

instance (u : UtcbArea) (c : PdCall) (pd : Pd) : Decidable (Sized u c pd) :=
  match c with
  | .create _ _ => inferInstanceAs (Decidable (pd.state ≠ .suspended))
  | .delete thread => inferInstanceAs (Decidable (u.m = 1 ∨ thread.utcb = u.base))
  | .setState _ => isTrue trivial

/-- Four slots of 1024 bytes, twice the alignment. -/
def smallArea : UtcbArea where
  a := 9
  m := 2
  maxThreads := 4
  base := 0x10000
  multiple := by decide
  shift := by decide
  count := by decide
  fits := by decide

def smallPd : Pd := (pdSetup 4).toOption.getD ⟨.empty, [], ⟨0, 0, fun _ => 0#64⟩⟩

theorem pdSetup_small : pdSetup smallArea.maxThreads = .ok smallPd := rfl

/-- The first thread can be deleted, and its slot used again. -/
theorem smallPd_kept :
    SlotsWell smallArea smallPd ∧ Along (pdStep smallArea) (SlotsKept smallArea)
      [.create (some 1) .done, .create (some 2) .noMem, .delete ⟨1, 0x10000⟩,
        .create (some 1) .done] smallPd :=
  (slots_kept_iff pdSetup_small _ (by decide +kernel)).mpr (by decide +kernel)

/-- The second thread is deleted: its number 1 is not free afterwards. -/
theorem second_slot_lost :
    pdSetup smallArea.maxThreads = .ok smallPd ∧
      Along (pdStep smallArea) PdCall.Legal
        [.create (some 1) .done, .create (some 2) .done, .delete ⟨2, 0x10400⟩] smallPd ∧
      ¬ (SlotsWell smallArea smallPd ∧ Along (pdStep smallArea) (SlotsKept smallArea)
        [.create (some 1) .done, .create (some 2) .done, .delete ⟨2, 0x10400⟩] smallPd) := by
  refine ⟨pdSetup_small, by decide +kernel, ?_⟩
  rintro ⟨hwell, hkept⟩
  have hend := runs_induction (fun _ _ _ h => h.ends) _ smallPd hwell hkept
  have hlast : (runs (pdStep smallArea)
      [.create (some 1) .done, .create (some 2) .done, .delete ⟨2, 0x10400⟩] smallPd).map
        (fun pd => (pd.threads, pd.localThreadno.bitarray 0)) = .ok ([⟨1, 0x10000⟩], 12#64) := by
    decide +kernel
  cases hr : runs (pdStep smallArea)
      [.create (some 1) .done, .create (some 2) .done, .delete ⟨2, 0x10400⟩] smallPd with
  | error e =>
    rw [hr] at hlast
    exact nomatch hlast
  | ok pd =>
    rw [hr] at hend hlast
    cases hend with
    | ok hpd =>
      obtain ⟨hthreads, hbits⟩ := Prod.mk.inj (Except.ok.inj hlast)
      have hfree := (hpd.complement 1).mpr ⟨by decide, by rw [hthreads]; decide⟩
      rw [Bfl.Free, hbits] at hfree
      exact absurd hfree (by decide)

end FreeVMS.Thread
