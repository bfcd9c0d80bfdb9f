import FreeVMS.Thread.RangeList
import FreeVMS.Thread.Hash
import FreeVMS.Alloc.Code
import FreeVMS.Lib.Run
import Mathlib.Data.List.Nodup

/-!
# Thread identifiers

`sys$thread_alloc` takes a number from the free list `thread_list`, makes an identifier of it
and files the thread under it in `l4tid_to_thread`; `sys$thread_free` undoes both.

`sys$thread_init` puts one number too many into the free list.  Numbers are taken from the
lower end, so that it is handed out only when all others are in use.
-/

namespace FreeVMS.Thread

open Alloc Run

/-- A word that is stored into an `int`. -/
def asInt (v : Nat) : Int :=
  if v % 2 ^ 32 < 2 ^ 31 then (v % 2 ^ 32 : Nat) else (v % 2 ^ 32 : Nat) - 2 ^ 32

/-- `L4_GlobalId`: the version in the lower half of the word and the number in the upper one. -/
def l4GlobalId (threadno : Int) (version : Nat) : Nat :=
  version % 2 ^ 32 + (threadno % 2 ^ 32).toNat * 2 ^ 32

/-- `L4_ThreadNo`. -/
def l4ThreadNo (id : Nat) : Nat := id / 2 ^ 32 % 2 ^ 32

/-- `thread_list` and `l4tid_to_thread`.  `live` are the identifiers in use with their threads; the
    code keeps no such list. -/
structure Threads where
  list : List Range
  table : HashTable
  live : List (Nat × Nat)

/-- The numbers in use. -/
def Threads.numbers (s : Threads) : List Nat := s.live.map fun x => l4ThreadNo x.1

/-- `min_threadno`. -/
def minThreadno (myself : Nat) : Nat := wordAdd (l4ThreadNo myself) 2

/-- `sys$thread_init`, for `bits` as `L4_ThreadIdBits` and the identifier of the running thread. -/
def threadInit (bits myself : Nat) : Except Fault Threads :=
  let r := rflInsertRange [] (minThreadno myself) (wordShl 1 bits)
  if r.1 ≠ .success then .error .panic else .ok ⟨r.2, hashInit 4096, []⟩

/-- `sys$thread_alloc`. -/
def threadAlloc (thread : Nat) (s : Threads) : Except Fault (Int × Threads) :=
  let r := rflAlloc s.list
  let threadNo := asInt r.1
  if threadNo = -1 then .ok (1, { s with list := r.2 })
  else
    let id := l4GlobalId threadNo 1
    if hashLookup s.table id ≠ 0 then .error .panic
    else .ok (0, ⟨r.2, hashInsert s.table id thread, (id, thread) :: s.live⟩)

/-- `sys$thread_free`. -/
def threadFree (id : Nat) (s : Threads) : Threads :=
  ⟨(rflFree s.list (l4ThreadNo id)).2, hashRemove s.table id, s.live.filter fun x => x.1 ≠ id⟩

inductive ThreadCall where
  | alloc (thread : Nat)
  | free (id : Nat)

def threadStep (c : ThreadCall) (s : Threads) : Except Fault Threads :=
  match c with
  | .alloc thread => (threadAlloc thread s).map Prod.snd
  | .free id => .ok (threadFree id s)

/-- A call has a thread, and frees an identifier that is in use. -/
def ThreadCall.Legal (c : ThreadCall) (s : Threads) : Prop :=
  match c with
  | .alloc thread => thread ≠ 0
  | .free id => ∃ thread, (id, thread) ∈ s.live

section

variable (lo bits : Nat)

/-- What the two structures are for: numbers in use are distinct and valid, and the table knows
    exactly the identifiers in use. -/
structure ThreadsWell (s : Threads) : Prop where
  distinct : s.numbers.Nodup
  valid : ∀ n ∈ s.numbers, lo ≤ n ∧ n ≤ 2 ^ bits - 1
  known : ∀ x ∈ s.live, hashLookup s.table x.1 = x.2
  unknown : ∀ id, (∀ x ∈ s.live, x.1 ≠ id) → hashLookup s.table id = 0

/-- All valid numbers are in use. -/
def AllInUse (s : Threads) : Prop := ∀ n, lo ≤ n → n ≤ 2 ^ bits - 1 → n ∈ s.numbers

/-- A call returns, an allocation fails exactly when all numbers are in use, and the structures are
    well afterwards. -/
def CallCorrect (c : ThreadCall) (s : Threads) : Prop :=
  match c with
  | .alloc thread => ∃ r s', threadAlloc thread s = .ok (r, s') ∧ (r ≠ 0 ↔ AllInUse lo bits s) ∧
      ThreadsWell lo bits s'
  | .free id => ThreadsWell lo bits (threadFree id s)

/-- The first number from `lo` on that is not handed out properly: the one that is put into the free
    list by mistake, or the one that is `-1` as an `int`. -/
def limit : Nat := min (2 ^ bits) (2 ^ 32 - 1)

/-- No allocation when all numbers below the limit are in use. -/
def Roomy (c : ThreadCall) (s : Threads) : Prop :=
  match c with
  | .alloc _ => ∃ n, lo ≤ n ∧ n < limit bits ∧ n ∉ s.numbers
  | .free _ => True

/-- The free list and the table describe complementary sets. -/
structure ThreadInv (s : Threads) : Prop where
  ranges : RangeInv s.list
  free : ∀ n, Within n s.list ↔ lo ≤ n ∧ n ≤ 2 ^ bits ∧ n ∉ s.numbers
  distinct : s.numbers.Nodup
  bound : ∀ n ∈ s.numbers, lo ≤ n ∧ n < limit bits
  version : ∀ x ∈ s.live, x.1 = l4GlobalId (l4ThreadNo x.1) 1
  threads : ∀ x ∈ s.live, x.2 ≠ 0
  bindings : ∀ id, s.table.bindings id = (s.live.filter fun x => x.1 = id).map Prod.snd

end

/-! ### Numbers and identifiers -/

section

variable {lo bits n v id thread : Nat} {list : List Range} {s : Threads}

theorem limit_le_bits : limit bits ≤ 2 ^ bits := Nat.min_le_left _ _

theorem limit_le_int : limit bits ≤ 2 ^ 32 - 1 := Nat.min_le_right _ _

theorem l4GlobalId_asInt (v : Nat) : l4GlobalId (asInt v) 1 = 1 + v % 2 ^ 32 * 2 ^ 32 := by
  have hmod : (asInt v % 2 ^ 32).toNat = v % 2 ^ 32 := by
    rw [asInt]
    split <;> omega
  rw [l4GlobalId, hmod, Nat.mod_eq_of_lt (show 1 < 2 ^ 32 by decide)]

theorem asInt_eq_neg_one : asInt v = -1 ↔ v % 2 ^ 32 = 2 ^ 32 - 1 := by
  rw [asInt]
  split <;> omega

theorem l4ThreadNo_id (v : Nat) : l4ThreadNo (1 + v % 2 ^ 32 * 2 ^ 32) = v % 2 ^ 32 := by
  simp only [l4ThreadNo]
  omega

theorem l4GlobalId_threadNo (id : Nat) :
    l4GlobalId (l4ThreadNo id) 1 = 1 + l4ThreadNo id * 2 ^ 32 := by
  have hlt : l4ThreadNo id < 2 ^ 32 := Nat.mod_lt _ (by decide)
  simp only [l4GlobalId]
  omega

/-- An identifier in use is that of its number. -/
theorem ThreadInv.id_eq (h : ThreadInv lo bits s) {x : Nat × Nat} (hx : x ∈ s.live) :
    x.1 = 1 + l4ThreadNo x.1 * 2 ^ 32 := by
  have hv := h.version x hx
  rwa [l4GlobalId_threadNo] at hv

theorem mem_numbers : n ∈ s.numbers ↔ ∃ x ∈ s.live, l4ThreadNo x.1 = n := by simp [Threads.numbers]

/-- The entries of an identifier in use. -/
theorem ThreadInv.filter_eq (h : ThreadInv lo bits s) {x : Nat × Nat} (hx : x ∈ s.live) :
    (s.live.filter fun y => y.1 = x.1) = [x] := by
  have hnodup : s.live.Nodup := List.Nodup.of_map _ h.distinct
  have hinj : ∀ y ∈ s.live, y.1 = x.1 → y = x := fun y hy heq =>
    List.inj_on_of_nodup_map h.distinct hy hx (congrArg l4ThreadNo heq)
  have hperm : (s.live.filter fun y => y.1 = x.1).Perm [x] := by
    rw [List.perm_ext_iff_of_nodup (hnodup.filter _) (List.nodup_singleton x)]
    intro y
    simp only [List.mem_filter, decide_eq_true_eq, List.mem_singleton]
    exact ⟨fun hy => hinj y hy.1 hy.2, fun hy => ⟨hy ▸ hx, congrArg Prod.fst hy⟩⟩
  exact List.perm_singleton.mp hperm

/-- The entries of an identifier that is not in use. -/
theorem filter_eq_nil (h : ∀ x ∈ s.live, x.1 ≠ id) : (s.live.filter fun y => y.1 = id) = [] := by
  simp only [List.filter_eq_nil_iff, decide_eq_true_eq]
  exact h

/-- The invariant says what the structures are for. -/
theorem ThreadInv.well (h : ThreadInv lo bits s) : ThreadsWell lo bits s where
  distinct := h.distinct
  valid n hn := by
    have hb := h.bound n hn
    have hl : limit bits ≤ 2 ^ bits := limit_le_bits
    omega
  known x hx := by
    rw [hashLookup_eq, h.bindings, h.filter_eq hx]
    rfl
  unknown id hid := by
    rw [hashLookup_eq, h.bindings, filter_eq_nil hid]
    rfl

/-! ### The two calls -/

/-- A new identifier with a number below the limit that was not in use. -/
theorem ThreadInv.add (h : ThreadInv lo bits s) (hn : Taken n s.list list) (hlt : n < limit bits)
    (hthread : thread ≠ 0) :
    ThreadInv lo bits ⟨list, hashInsert s.table (1 + n * 2 ^ 32) thread,
      (1 + n * 2 ^ 32, thread) :: s.live⟩ := by
  have hint : limit bits ≤ 2 ^ 32 - 1 := limit_le_int
  obtain ⟨hlo, -, hnew⟩ := (h.free n).mp hn.mem
  have hno : l4ThreadNo (1 + n * 2 ^ 32) = n := by
    simp only [l4ThreadNo]
    omega
  have hnum : (Threads.mk list (hashInsert s.table (1 + n * 2 ^ 32) thread)
      ((1 + n * 2 ^ 32, thread) :: s.live)).numbers = n :: s.numbers := by
    simp only [Threads.numbers, List.map_cons, hno]
  constructor
  case ranges => exact hn.inv
  case free =>
    intro m
    simp only [hnum, hn.within, h.free, List.mem_cons, not_or]
    tauto
  case distinct =>
    rw [hnum]
    exact List.nodup_cons.mpr ⟨hnew, h.distinct⟩
  case bound =>
    intro m hm
    rw [hnum] at hm
    rcases List.mem_cons.mp hm with rfl | hm
    · exact ⟨hlo, hlt⟩
    · exact h.bound m hm
  case version =>
    intro x hx
    rcases List.mem_cons.mp hx with rfl | hx
    · rw [l4GlobalId_threadNo, hno]
    · exact h.version x hx
  case threads =>
    intro x hx
    rcases List.mem_cons.mp hx with rfl | hx
    · exact hthread
    · exact h.threads x hx
  case bindings =>
    intro id
    by_cases hid : id = 1 + n * 2 ^ 32
    · subst hid
      rw [bindings_hashInsert_self, h.bindings]
      simp
    · rw [bindings_hashInsert_other hid, h.bindings,
        List.filter_cons_of_neg (by simpa using fun heq => hid (Eq.symm heq))]

/-- The identifier of a number that is not in use is not known. -/
theorem ThreadInv.not_known (h : ThreadInv lo bits s) (hlt : n < 2 ^ 32) (hn : n ∉ s.numbers) :
    hashLookup s.table (1 + n * 2 ^ 32) = 0 := by
  apply h.well.unknown
  intro x hx heq
  apply hn
  refine mem_numbers.mpr ⟨x, hx, ?_⟩
  rw [heq]
  simp only [l4ThreadNo]
  omega

/-- **Allocation.**  While there is a number below the limit, one is handed out. -/
theorem ThreadInv.alloc (h : ThreadInv lo bits s) (hthread : thread ≠ 0)
    (hroom : Roomy lo bits (.alloc thread) s) :
    ∃ s', threadAlloc thread s = .ok (0, s') ∧ ThreadInv lo bits s' := by
  obtain ⟨m, hlo, hlt, hm⟩ := hroom
  have hbits : limit bits ≤ 2 ^ bits := limit_le_bits
  have hint : limit bits ≤ 2 ^ 32 - 1 := limit_le_int
  have hfree : Within m s.list := (h.free m).mpr ⟨hlo, by omega, hm⟩
  have hne : s.list ≠ [] := by
    rintro hnil
    simp [hnil] at hfree
  have htaken := rflAlloc_taken h.ranges hne
  have hle : (rflAlloc s.list).1 ≤ m := htaken.least m hfree
  have hmod : (rflAlloc s.list).1 % 2 ^ 32 = (rflAlloc s.list).1 := Nat.mod_eq_of_lt (by omega)
  have hnew := ((h.free _).mp htaken.mem).2.2
  have hno : asInt (rflAlloc s.list).1 ≠ -1 := by
    rw [ne_eq, asInt_eq_neg_one]
    omega
  refine ⟨_, ?_, h.add htaken (by omega) hthread⟩
  simp only [threadAlloc, if_neg hno, l4GlobalId_asInt, hmod]
  rw [if_neg (by simpa using h.not_known (by omega) hnew)]

/-- **Release.**  An identifier in use can be taken back. -/
theorem ThreadInv.release (h : ThreadInv lo bits s) (hlo : 0 < lo) (hid : (id, thread) ∈ s.live) :
    ThreadInv lo bits (threadFree id s) := by
  have hint : limit bits ≤ 2 ^ 32 - 1 := limit_le_int
  have hbits : limit bits ≤ 2 ^ bits := limit_le_bits
  have hmem : l4ThreadNo id ∈ s.numbers := mem_numbers.mpr ⟨_, hid, rfl⟩
  have hbound := h.bound _ hmem
  have hw : (2 : Nat) ^ 32 < wordSize := by decide
  have hadd := (rflInsertRange_added h.ranges (show 0 < l4ThreadNo id by omega) (Nat.le_refl _) (by omega)
    (fun m h1 h2 hm => ((h.free m).mp hm).2.2 (by rwa [show m = l4ThreadNo id by omega]))).2
  -- the other identifiers have other numbers
  have hother : ∀ x ∈ s.live, l4ThreadNo x.1 = l4ThreadNo id → x.1 = id := by
    intro x hx heq
    rw [h.id_eq hx, heq]
    exact (h.id_eq hid).symm
  have hnum : ∀ n, n ∈ (threadFree id s).numbers ↔ n ∈ s.numbers ∧ n ≠ l4ThreadNo id := by
    intro n
    simp only [threadFree, mem_numbers, List.mem_filter, decide_eq_true_eq]
    constructor
    · rintro ⟨x, ⟨hx, hne⟩, rfl⟩
      exact ⟨⟨x, hx, rfl⟩, fun heq => hne (hother x hx heq)⟩
    · rintro ⟨⟨x, hx, rfl⟩, hne⟩
      exact ⟨x, ⟨hx, fun heq => hne (heq ▸ rfl)⟩, rfl⟩
  constructor
  case ranges => exact hadd.inv
  case free =>
    intro n
    rw [hnum]
    show Within n (rflInsertRange s.list (l4ThreadNo id) (l4ThreadNo id)).2 ↔ _
    rw [hadd.within, h.free]
    constructor
    · rintro (heq | ⟨h1, h2, h3⟩)
      · obtain rfl : n = l4ThreadNo id := by omega
        exact ⟨hbound.1, by omega, fun hn => hn.2 rfl⟩
      · exact ⟨h1, h2, fun hn => h3 hn.1⟩
    · rintro ⟨h1, h2, h3⟩
      by_cases heq : n = l4ThreadNo id
      · exact .inl (by omega)
      · exact .inr ⟨h1, h2, fun hn => h3 ⟨hn, heq⟩⟩
  case distinct => exact h.distinct.sublist (List.filter_sublist.map _)
  case bound => exact fun n hn => h.bound n ((hnum n).mp hn).1
  case version => exact fun x hx => h.version x (List.mem_filter.mp hx).1
  case threads => exact fun x hx => h.threads x (List.mem_filter.mp hx).1
  case bindings =>
    intro key
    show (hashRemove s.table id).bindings key = ((s.live.filter _).filter _).map _
    rw [List.filter_filter]
    by_cases hk : key = id
    · subst hk
      rw [bindings_hashRemove_self, h.bindings, h.filter_eq hid]
      simp
    · rw [bindings_hashRemove_other hk, h.bindings]
      congr 1
      apply List.filter_congr
      intro x _
      by_cases hx : x.1 = key <;> simp [hx, hk]

/-- **Overrun.**  When all numbers below the limit are in use, an allocation is not correct: it takes
    the number that should not be there, or returns 1 while there are numbers left. -/
theorem ThreadInv.overrun (h : ThreadInv lo bits s) (hlo : lo ≤ 2 ^ bits)
    (hfull : ∀ n, lo ≤ n → n < limit bits → n ∈ s.numbers) :
    ¬ CallCorrect lo bits (.alloc thread) s := by
  rintro ⟨r, s', hr, hfails, hwell⟩
  have hbound : ∀ n ∈ s.numbers, n < 2 ^ bits ∧ n < 2 ^ 32 - 1 := by
    intro n hn
    have hb := h.bound n hn
    have h1 : limit bits ≤ 2 ^ bits := limit_le_bits
    have h2 : limit bits ≤ 2 ^ 32 - 1 := limit_le_int
    omega
  have hlast : Within (2 ^ bits) s.list :=
    (h.free _).mpr ⟨hlo, Nat.le_refl _, fun hn => absurd (hbound _ hn).1 (Nat.lt_irrefl _)⟩
  have hne : s.list ≠ [] := by
    rintro hnil
    simp [hnil] at hlast
  have htaken := rflAlloc_taken h.ranges hne
  generalize hv : (rflAlloc s.list).1 = v at htaken
  obtain ⟨hvlo, hvhi, hvnew⟩ := (h.free v).mp htaken.mem
  have hvlim : limit bits ≤ v := by
    by_contra hcon
    exact hvnew (hfull v hvlo (by omega))
  simp only [threadAlloc, hv] at hr
  by_cases hneg : asInt v = -1
  · -- the number is taken for a failure
    rw [if_pos hneg] at hr
    obtain ⟨rfl, -⟩ := Prod.mk.inj (Except.ok.inj hr)
    rw [asInt_eq_neg_one] at hneg
    have hmod : v ≠ 2 ^ bits := by
      rintro rfl
      rcases Nat.lt_or_ge bits 32 with hb | hb
      · have : (2 : Nat) ^ bits < 2 ^ 32 := Nat.pow_lt_pow_right (by decide) hb
        have : (2 : Nat) ^ bits ≤ 2 ^ 31 := Nat.pow_le_pow_right (by decide) (by omega)
        omega
      · obtain ⟨k, hk⟩ := two_pow_dvd_of_le hb
        omega
    exact hvnew (hfails.mp (by decide) v hvlo (by omega))
  · rw [if_neg hneg] at hr
    by_cases hknown : hashLookup s.table (l4GlobalId (asInt v) 1) ≠ 0
    · rw [if_pos hknown] at hr
      exact nomatch hr
    · rw [if_neg hknown] at hr
      obtain ⟨rfl, rfl⟩ := Prod.mk.inj (Except.ok.inj hr)
      rw [l4GlobalId_asInt] at hwell
      rw [asInt_eq_neg_one] at hneg
      rcases Nat.lt_or_ge v (2 ^ 32) with hlt | hge
      · -- all valid numbers are in use, and the call succeeds
        have hlimit : limit bits = min (2 ^ bits) (2 ^ 32 - 1) := rfl
        have hpos : 0 < 2 ^ bits := Nat.two_pow_pos bits
        have hall : AllInUse lo bits s := fun n hn hn' => hfull n hn (by omega)
        exact absurd rfl (hfails.mpr hall)
      · -- the number does not fit an identifier
        have hbig : 2 ^ 32 ≤ lo := by
          by_contra hcon
          have hfree : Within (2 ^ 32 - 1) s.list :=
            (h.free _).mpr ⟨by omega, by omega, fun hn => absurd (hbound _ hn).2 (Nat.lt_irrefl _)⟩
          have := htaken.least _ hfree
          omega
        have hno := hwell.valid (v % 2 ^ 32) (mem_numbers.mpr ⟨_, List.mem_cons_self, l4ThreadNo_id v⟩)
        omega

/-- A correct call returns, and leaves the structures well. -/
theorem CallCorrect.ends {c : ThreadCall} (h : CallCorrect lo bits c s) :
    Ends (fun _ => False) (ThreadsWell lo bits) (threadStep c s) := by
  cases c with
  | alloc thread =>
    obtain ⟨r, s', hr, -, hwell⟩ := h
    rw [threadStep, hr]
    exact .ok hwell
  | free id => exact .ok h

/-- After `sys$thread_init` no number is in use. -/
theorem threadInit_inv {myself : Nat} (hbits : bits < 64) (h : threadInit bits myself = .ok s) :
    ThreadInv (minThreadno myself) bits s ∧ 0 < minThreadno myself ∧
      minThreadno myself ≤ 2 ^ bits := by
  have hlt : l4ThreadNo myself < 2 ^ 32 := Nat.mod_lt _ (by decide)
  have hpow : (2 : Nat) ^ bits ≤ 2 ^ 63 := Nat.pow_le_pow_right (by decide) (by omega)
  have hw : wordSize = 2 ^ 64 := rfl
  have hlo : minThreadno myself = l4ThreadNo myself + 2 := Nat.mod_eq_of_lt (by omega)
  have hshl : wordShl 1 bits = 2 ^ bits := by
    rw [wordShl, Nat.mod_eq_of_lt hbits, Nat.one_mul, Nat.mod_eq_of_lt (by omega)]
  simp only [threadInit, hshl] at h
  have hle : minThreadno myself ≤ 2 ^ bits := by
    by_contra hcon
    have hr : rflInsertRange [] (minThreadno myself) (2 ^ bits) = (.invRange, []) :=
      if_pos (by omega)
    rw [hr] at h
    cases h
  obtain ⟨hsuccess, hadd⟩ := rflInsertRange_added rangeInv_nil (show 0 < minThreadno myself by omega) hle
    (by omega) (fun _ _ _ => within_nil)
  rw [if_neg (by simpa using hsuccess)] at h
  obtain rfl := Except.ok.inj h
  refine ⟨?_, by omega, hle⟩
  constructor
  case ranges => exact hadd.inv
  case free =>
    intro n
    simp [hadd.within, Threads.numbers]
  case bindings => exact fun id => rfl
  all_goals simp [Threads.numbers]

/-- **Thread identifiers.**  The calls after `sys$thread_init` are correct exactly as long as none of
    them asks for an identifier while all numbers below the limit are in use. -/
theorem thread_ids_correct_iff {myself : Nat} (hbits : bits < 64)
    (hinit : threadInit bits myself = .ok s) (calls : List ThreadCall)
    (hlegal : Along threadStep ThreadCall.Legal calls s) :
    (ThreadsWell (minThreadno myself) bits s ∧
        Along threadStep (CallCorrect (minThreadno myself) bits) calls s) ↔
      Along threadStep (Roomy (minThreadno myself) bits) calls s := by
  obtain ⟨hinv, hpos, hle⟩ := threadInit_inv hbits hinit
  rw [and_iff_right hinv.well]
  refine Along.congr (I := ThreadInv (minThreadno myself) bits) ?_ ?_ calls s hinv hlegal
  · intro c s hs hl
    cases c with
    | alloc thread =>
      constructor
      · intro hcorrect
        by_contra hfull
        refine hs.overrun hle (fun n hn hn' => ?_) hcorrect
        by_contra hnew
        exact hfull ⟨n, hn, hn', hnew⟩
      · intro hroom
        obtain ⟨s', hs', hinv'⟩ := hs.alloc hl hroom
        refine ⟨0, s', hs', ?_, hinv'.well⟩
        obtain ⟨n, hn, hn', hnew⟩ := hroom
        have hlim : limit bits ≤ 2 ^ bits := limit_le_bits
        simp only [ne_eq, not_true_eq_false, false_iff]
        exact fun hall => hnew (hall n hn (by omega))
    | free id =>
      obtain ⟨thread, hid⟩ := hl
      exact iff_of_true (hs.release hpos hid).well trivial
  · intro c s s' hs hl hroom hstep
    cases c with
    | alloc thread =>
      obtain ⟨s'', hs'', hinv'⟩ := hs.alloc hl hroom
      rw [threadStep, hs''] at hstep
      obtain rfl := Except.ok.inj hstep
      exact hinv'
    | free id =>
      obtain ⟨thread, hid⟩ := hl
      obtain rfl := Except.ok.inj hstep
      exact hs.release hpos hid

end

/-- The numbers 2 and 3, and one too many. -/
def smallThreads : Threads := ⟨[⟨2, 4⟩], hashInit 4096, []⟩

/-- The first identifier is handed out properly. -/
theorem smallThreads_correct :
    ThreadsWell 2 2 smallThreads ∧ Along threadStep (CallCorrect 2 2) [.alloc 7] smallThreads :=
  (thread_ids_correct_iff (by decide) (rfl : threadInit 2 0 = .ok smallThreads) [.alloc 7]
    (Along.of_forall (by simp [ThreadCall.Legal]) _)).mpr
      ⟨⟨2, by decide, by decide, by decide⟩, fun _ _ => trivial⟩

/-- The third identifier has the number 4, which has no room in the 2 bits of a number. -/
theorem third_thread_number_too_large :
    threadInit 2 0 = .ok smallThreads ∧
      Along threadStep ThreadCall.Legal [.alloc 7, .alloc 8, .alloc 9] smallThreads ∧
      ¬ (ThreadsWell (minThreadno 0) 2 smallThreads ∧
        Along threadStep (CallCorrect (minThreadno 0) 2) [.alloc 7, .alloc 8, .alloc 9] smallThreads) := by
  refine ⟨rfl, Along.of_forall (by simp [ThreadCall.Legal]) _, ?_⟩
  rintro ⟨hwell, hcorrect⟩
  have hend := runs_induction (fun _ _ _ h => h.ends) _ smallThreads hwell hcorrect
  have hnumbers : (runs threadStep [.alloc 7, .alloc 8, .alloc 9] smallThreads).map Threads.numbers =
      .ok [4, 3, 2] := by decide +kernel
  cases hr : runs threadStep [.alloc 7, .alloc 8, .alloc 9] smallThreads with
  | error e =>
    rw [hr] at hnumbers
    exact nomatch hnumbers
  | ok s =>
    rw [hr] at hend hnumbers
    cases hend with
    | ok hs =>
      have hvalid := hs.valid 4 (by simp [Except.ok.inj hnumbers])
      exact absurd hvalid.2 (by decide)

end FreeVMS.Thread
