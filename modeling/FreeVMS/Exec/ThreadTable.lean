import FreeVMS.Exec.Code

/-!
# The table of threads

`thread_list` and `l4tid_to_thread` as parts of the state.  `live` are the identifiers in use with
their threads: what `Thread/Ids.lean` says about the two structures holds of them here, with the
entries of the table in memory.
-/

namespace FreeVMS.Exec

open Alloc Thread Kernel.Access

/-- The identifiers in use are not free, and the table knows exactly these. -/
def Filed (lo idBits : Nat) (s : System) (live : List (Nat × Nat)) : Prop :=
  ∃ t, ThreadInv lo idBits ⟨s.threadList, t, live⟩ ∧
    Chained.Holds hashHash s.security.threads t.bindings

/-- There is a number that can be handed out. -/
def Room (lo idBits : Nat) (live : List (Nat × Nat)) : Prop :=
  ∃ n, lo ≤ n ∧ n < limit idBits ∧ n ∉ live.map fun x => l4ThreadNo x.1

section

variable {lo idBits tid thread entry n id : Nat} {list : List Range} {s s' : System}
  {live : List (Nat × Nat)}

@[simp] theorem withThreads_threadList {table : Chained.HashMem} :
    (s.withThreads table list).threadList = list := rfl

/-- Only the table and the free list matter. -/
theorem Filed.congr (h : Filed lo idBits s live) (hlist : s'.threadList = s.threadList)
    (htable : s'.security.threads = s.security.threads) : Filed lo idBits s' live := by
  obtain ⟨t, hinv, hholds⟩ := h
  exact ⟨t, by rw [hlist]; exact hinv, by rw [htable]; exact hholds⟩

/-- **Lookup.**  What is filed under an identifier. -/
theorem Filed.lookup (h : Filed lo idBits s live) (tid : Nat) :
    threadLookup s.security tid =
      .ok (((live.filter fun x => x.1 = tid).map Prod.snd).headD 0) := by
  obtain ⟨t, hinv, hholds⟩ := h
  rw [threadLookup, Chained.hashLookup_spec hholds, hinv.bindings]

/-- A thread that is filed is found, and no other one. -/
theorem Filed.lookup_iff (h : Filed lo idBits s live) (hthread : thread ≠ 0) :
    threadLookup s.security tid = .ok thread ↔ (tid, thread) ∈ live := by
  rw [h.lookup]
  obtain ⟨t, hinv, -⟩ := h
  by_cases hid : ∃ x ∈ live, x.1 = tid
  · obtain ⟨x, hx, rfl⟩ := hid
    rw [hinv.filter_eq hx]
    constructor
    · intro heq
      have hsnd : x.2 = thread := Except.ok.inj heq
      rw [← hsnd]
      exact hx
    · intro hmem
      have heq : (x.1, thread) = x := List.inj_on_of_nodup_map hinv.distinct hmem hx rfl
      rw [← heq]
      rfl
  · have hnone : ∀ x ∈ live, x.1 ≠ tid := fun x hx heq => hid ⟨x, hx, heq⟩
    have hnil : (live.filter fun x => x.1 = tid) = [] := by
      simpa only [List.filter_eq_nil_iff, decide_eq_true_eq] using hnone
    rw [hnil]
    refine iff_of_false (fun heq => hthread ?_) fun hmem => hnone _ hmem rfl
    exact (Except.ok.inj heq).symm

/-- An identifier that is not in use is not known. -/
theorem Filed.lookup_none (h : Filed lo idBits s live) (hnone : ∀ x ∈ live, x.1 ≠ tid) :
    threadLookup s.security tid = .ok 0 := by
  have hnil : (live.filter fun x => x.1 = tid) = [] := by
    simpa only [List.filter_eq_nil_iff, decide_eq_true_eq] using hnone
  rw [h.lookup, hnil]
  rfl

/-- The identifiers in use are those of different threads. -/
theorem Filed.id_inj (h : Filed lo idBits s live) {x y : Nat × Nat} (hx : x ∈ live) (hy : y ∈ live)
    (heq : x.1 = y.1) : x = y := by
  obtain ⟨t, hinv, -⟩ := h
  exact List.inj_on_of_nodup_map hinv.distinct hx hy (congrArg l4ThreadNo heq)

theorem Filed.nodup (h : Filed lo idBits s live) : live.Nodup := by
  obtain ⟨t, hinv, -⟩ := h
  exact List.Nodup.of_map _ hinv.distinct

theorem Filed.ne_zero (h : Filed lo idBits s live) {x : Nat × Nat} (hx : x ∈ live) : x.2 ≠ 0 := by
  obtain ⟨t, hinv, -⟩ := h
  exact hinv.threads x hx

/-! ### Taking a number and giving it back -/

/-- The least number of a list, taken out and put in again. -/
theorem rflFree_rflAlloc (hinv : RangeInv list) (hne : list ≠ []) (hlo : 0 < (rflAlloc list).1)
    (hhi : (rflAlloc list).1 + 1 < wordSize) :
    (rflFree (rflAlloc list).2 (rflAlloc list).1).2 = list := by
  cases list with
  | nil => exact absurd rfl hne
  | cons range rest =>
    obtain ⟨⟨hp, hpw⟩, hafter, -⟩ := rangeInv_cons.mp hinv
    obtain ⟨a, b⟩ := range
    simp only at hp hpw hafter
    by_cases hone : a = b
    · -- the range has only this number
      subst hone
      have hpair : rflAlloc (⟨a, a⟩ :: rest) = (a, rest) := if_pos rfl
      rw [hpair] at hlo hhi ⊢
      simp only at hlo hhi
      rw [rflFree, rflInsertRange, if_neg (Nat.lt_irrefl a)]
      cases rest with
      | nil => rfl
      | cons r rest =>
        have hgap : a + 1 < r.lo := hafter r List.mem_cons_self
        obtain ⟨⟨hr, -⟩, -, -⟩ := rangeInv_cons.mp (rangeInv_cons.mp hinv).2.2
        rw [rflScan, if_neg (by omega), wordAdd_one hhi, if_neg (by omega), wordSub_one hlo (by omega),
          if_neg (by omega), if_pos (by omega)]
    · have hsucc : wordAdd a 1 = a + 1 := wordAdd_one (by omega)
      have hpair : rflAlloc (⟨a, b⟩ :: rest) = (a, ⟨a + 1, b⟩ :: rest) := by
        rw [rflAlloc, if_neg hone, hsucc]
      rw [hpair]
      rw [rflFree, rflInsertRange, if_neg (Nat.lt_irrefl a), rflScan]
      simp only
      rw [if_neg (by omega), hsucc, if_pos rfl]

/-- The number that is taken next. -/
theorem Filed.taken (h : Filed lo idBits s live) (hroom : Room lo idBits live) :
    RangeInv s.threadList ∧ s.threadList ≠ [] ∧
      Taken (rflAlloc s.threadList).1 s.threadList (rflAlloc s.threadList).2 ∧
      lo ≤ (rflAlloc s.threadList).1 ∧ (rflAlloc s.threadList).1 < limit idBits := by
  obtain ⟨t, hinv, -⟩ := h
  obtain ⟨m, hlo, hlt, hm⟩ := hroom
  have hbits : limit idBits ≤ 2 ^ idBits := limit_le_bits
  have hfree : Within m s.threadList := (hinv.free m).mpr ⟨hlo, by omega, hm⟩
  have hne : s.threadList ≠ [] := by
    intro hnil
    simp [hnil] at hfree
  have htaken := rflAlloc_taken hinv.ranges hne
  have hle : (rflAlloc s.threadList).1 ≤ m := htaken.least m hfree
  exact ⟨hinv.ranges, hne, htaken, ((hinv.free _).mp htaken.mem).1, by omega⟩

/-- **Allocation.**  While there is a number below the limit, a new identifier is handed out. -/
theorem Filed.alloc (h : Filed lo idBits s live) (hroom : Room lo idBits live) (hthread : thread ≠ 0)
    (hentry : entry ≠ 0) (hfresh : entry ∉ s.security.threads.live) :
    ∃ id table, threadAlloc thread entry s =
        .ok (0, (s.withThreads table (rflAlloc s.threadList).2).setId thread id) ∧
      l4ThreadNo id = (rflAlloc s.threadList).1 ∧ (∀ x ∈ live, x.1 ≠ id) ∧
      Filed lo idBits (s.withThreads table (rflAlloc s.threadList).2) ((id, thread) :: live) := by
  obtain ⟨-, -, htaken, hge, hlt⟩ := h.taken hroom
  obtain ⟨t, hinv, hholds⟩ := h
  have hint : limit idBits ≤ 2 ^ 32 - 1 := limit_le_int
  have hmod : (rflAlloc s.threadList).1 % 2 ^ 32 = (rflAlloc s.threadList).1 :=
    Nat.mod_eq_of_lt (by omega)
  have hno : asInt (rflAlloc s.threadList).1 ≠ -1 := by
    rw [ne_eq, asInt_eq_neg_one]
    omega
  have hid : l4GlobalId (asInt (rflAlloc s.threadList).1) 1 =
      1 + (rflAlloc s.threadList).1 * 2 ^ 32 := by rw [l4GlobalId_asInt, hmod]
  have hnumber : l4ThreadNo (1 + (rflAlloc s.threadList).1 * 2 ^ 32) = (rflAlloc s.threadList).1 := by
    rw [← hmod, l4ThreadNo_id]
  have hnew := ((hinv.free _).mp htaken.mem).2.2
  have hnone : ∀ x ∈ live, x.1 ≠ 1 + (rflAlloc s.threadList).1 * 2 ^ 32 := by
    intro x hx heq
    exact hnew (mem_numbers.mpr ⟨x, hx, by rw [heq, hnumber]⟩)
  have hlookup : Chained.hashLookup hashHash s.security.threads
      (1 + (rflAlloc s.threadList).1 * 2 ^ 32) = .ok 0 := by
    rw [Chained.hashLookup_spec hholds, ← hashLookup_eq]
    exact congrArg _ (hinv.not_known (by omega) hnew)
  obtain ⟨table, hinsert, hholds'⟩ := Chained.hashInsert_spec (1 + (rflAlloc s.threadList).1 * 2 ^ 32)
    thread hholds hentry hfresh
  refine ⟨1 + (rflAlloc s.threadList).1 * 2 ^ 32, table, ?_, hnumber, hnone,
    hashInsert t (1 + (rflAlloc s.threadList).1 * 2 ^ 32) thread, hinv.add htaken hlt hthread, ?_⟩
  · simp only [threadAlloc, if_neg hno, hid, hlookup, ne_eq, not_true_eq_false, if_false, hinsert]
  · have hbind : (hashInsert t (1 + (rflAlloc s.threadList).1 * 2 ^ 32) thread).bindings =
        Function.update t.bindings (1 + (rflAlloc s.threadList).1 * 2 ^ 32)
          (thread :: t.bindings (1 + (rflAlloc s.threadList).1 * 2 ^ 32)) := by
      funext key
      by_cases hkey : key = 1 + (rflAlloc s.threadList).1 * 2 ^ 32
      · rw [hkey, Function.update_self, bindings_hashInsert_self]
      · rw [Function.update_of_ne hkey, bindings_hashInsert_other hkey]
    rw [hbind]
    exact hholds'

/-- **Release.**  An identifier in use is taken back. -/
theorem Filed.free (h : Filed lo idBits s live) (hlo : 0 < lo) (hid : (id, thread) ∈ live) :
    ∃ table, threadFree id s =
        .ok (s.withThreads table (rflFree s.threadList (l4ThreadNo id)).2) ∧
      Filed lo idBits (s.withThreads table (rflFree s.threadList (l4ThreadNo id)).2)
        (live.filter fun x => x.1 ≠ id) := by
  obtain ⟨t, hinv, hholds⟩ := h
  obtain ⟨table, hremove, hholds'⟩ := Chained.hashRemove_spec id hholds
  refine ⟨table, ?_, hashRemove t id, hinv.release hlo hid, ?_⟩
  · simp only [threadFree, hremove]
  · have hbind : (hashRemove t id).bindings =
        Function.update t.bindings id (t.bindings id).tail := by
      funext key
      by_cases hkey : key = id
      · rw [hkey, Function.update_self, bindings_hashRemove_self]
      · rw [Function.update_of_ne hkey, bindings_hashRemove_other hkey]
    rw [hbind]
    exact hholds'

/-- A number that was just taken is given back. -/
theorem Filed.alloc_free (h : Filed lo idBits s live) (hlo : 0 < lo) (hroom : Room lo idBits live)
    {table : Chained.HashMem} (hnumber : l4ThreadNo id = (rflAlloc s.threadList).1)
    (hnew : ∀ x ∈ live, x.1 ≠ id)
    (hfiled : Filed lo idBits (s.withThreads table (rflAlloc s.threadList).2) ((id, thread) :: live)) :
    ∃ table', threadFree id (s.withThreads table (rflAlloc s.threadList).2) =
        .ok (s.withThreads table' s.threadList) ∧
      Filed lo idBits (s.withThreads table' s.threadList) live := by
  obtain ⟨hranges, hne, -, hge, hlt⟩ := h.taken hroom
  have hint : limit idBits ≤ 2 ^ 32 - 1 := limit_le_int
  have hw : (2 : Nat) ^ 32 < wordSize := by decide
  obtain ⟨table', hfree, hfiled'⟩ := hfiled.free hlo List.mem_cons_self
  have hlist : (rflFree (s.withThreads table (rflAlloc s.threadList).2).threadList (l4ThreadNo id)).2 =
      s.threadList := by
    rw [withThreads_threadList, hnumber]
    exact rflFree_rflAlloc hranges hne (by omega) (by omega)
  have hlive : (((id, thread) :: live).filter fun x => x.1 ≠ id) = live := by
    rw [List.filter_cons_of_neg (by simp)]
    exact List.filter_eq_self.mpr fun x hx => by simpa using hnew x hx
  rw [hlist] at hfree hfiled'
  rw [hlive] at hfiled'
  exact ⟨table', hfree, hfiled'⟩

end

end FreeVMS.Exec
