import FreeVMS.Alloc.L4
import FreeVMS.Lib.Run

/-!
# The counted lock

`sys$mutex_count_lock` and `sys$mutex_count_unlock`: an inner lock `internal`, taken with a
compare-and-set, guards the two words `count` and `holder`.  The functions are cut into their
accesses to these words, and the threads take turns at any of them.

Nothing waits for `holder`, so the lock only counts.
-/

namespace FreeVMS.Sync

open Alloc Run

/-- `struct mutex`. -/
structure Mutex where
  holder : Nat
  internal : Nat
  count : Nat
deriving DecidableEq, Repr

/-- What a thread does next: outside of the two functions, or the accesses of
    `sys$mutex_count_lock` and of `sys$mutex_count_unlock` in their order. -/
inductive Pc where
  | idle
  | lockTry
  | lockCount
  | lockHolder
  | lockRelease
  | unlockTry
  | unlockCount
  | unlockTest
  | unlockRelease
deriving DecidableEq, Repr

section

variable {τ : Type} [DecidableEq τ]

/-- `depth` is how many returns of `sys$mutex_count_lock` have not been matched by a call of
    `sys$mutex_count_unlock` yet; the code keeps no such number. -/
structure State (τ : Type) where
  mutex : Mutex
  pc : τ → Pc
  depth : τ → Nat

/-- After `sys$mutex_init`. -/
def State.init : State τ := ⟨⟨0, 0, 0⟩, fun _ => .idle, fun _ => 0⟩

/-- `try_lock`: the word is set if it was 0, and compared with the caller afterwards. -/
def tryLock (word me : Nat) : Nat × Bool :=
  let word := if word = 0 then me else word
  (word, decide (word = me))

/-- Thread `t` goes on with the word `m` and is then at `pc`. -/
def State.go (s : State τ) (t : τ) (m : Mutex) (pc : Pc) : State τ :=
  { s with mutex := m, pc := Function.update s.pc t pc }

@[simp] theorem State.go_mutex (s : State τ) (t : τ) (m : Mutex) (pc : Pc) : (s.go t m pc).mutex = m :=
  rfl

@[simp] theorem State.go_pc (s : State τ) (t : τ) (m : Mutex) (pc : Pc) : (s.go t m pc).pc t = pc :=
  Function.update_self _ _ _

@[simp] theorem State.go_depth (s : State τ) (t : τ) (m : Mutex) (pc : Pc) :
    (s.go t m pc).depth = s.depth := rfl

/-- One access of thread `t`.  Outside of the functions the thread calls one of them: it may lock
    at any time (`wish`), and unlock what it has locked. -/
def access (myself : τ → Nat) (i : τ × Bool) (s : State τ) : Except Unit (State τ) :=
  let t := i.1
  let m := s.mutex
  .ok <|
    match s.pc t with
    | .idle =>
        if i.2 then s.go t m .lockTry
        else if 0 < s.depth t then
          { s.go t m .unlockTry with depth := Function.update s.depth t (s.depth t - 1) }
        else s
    | .lockTry =>
        let r := tryLock m.internal (myself t)
        s.go t { m with internal := r.1 } (if r.2 then .lockCount else .lockTry)
    | .lockCount => s.go t { m with count := wordAdd m.count 1 } .lockHolder
    | .lockHolder => s.go t { m with holder := m.internal } .lockRelease
    | .lockRelease =>
        { s.go t { m with internal := 0 } .idle with
          depth := Function.update s.depth t (s.depth t + 1) }
    | .unlockTry =>
        let r := tryLock m.internal (myself t)
        s.go t { m with internal := r.1 } (if r.2 then .unlockCount else .unlockTry)
    | .unlockCount => s.go t { m with count := wordSub m.count 1 } .unlockTest
    | .unlockTest =>
        s.go t (if m.count = 0 then { m with holder := 0 } else m) .unlockRelease
    | .unlockRelease => s.go t { m with internal := 0 } .idle

/-- Between the return of `sys$mutex_count_lock` and the matching `sys$mutex_count_unlock`. -/
def Inside (s : State τ) (t : τ) : Prop := 0 < s.depth t

/-- What the lock is for: one thread at a time is inside; a thread inside that locks again is kept
    waiting at most by another one in the middle of a call; and the lock is released when its
    count returns to 0. -/
structure LockCorrect (myself : τ → Nat) (s : State τ) : Prop where
  exclusion : ∀ t u, Inside s t → Inside s u → t = u
  again : ∀ t, Inside s t → s.pc t = .lockTry → s.mutex.internal ≠ 0 →
    ∃ u, u ≠ t ∧ s.mutex.internal = myself u
  released : ∀ t, s.pc t = .unlockRelease → s.mutex.count = 0 → s.mutex.holder = 0
  free : (∀ t, s.pc t = .idle ∧ ¬ Inside s t) → s.mutex.count = 0 ∧ s.mutex.holder = 0

/-- The words as thread `t` leaves them when it is alone. -/
structure Alone (myself : τ → Nat) (t : τ) (s : State τ) : Prop where
  internal : s.mutex.internal =
    match s.pc t with
    | .idle | .lockTry | .unlockTry => 0
    | _ => myself t
  count : s.mutex.count =
    match s.pc t with
    | .lockHolder | .lockRelease | .unlockTry | .unlockCount => (s.depth t + 1) % wordSize
    | _ => s.depth t % wordSize
  holder : s.depth t = 0 →
    match s.pc t with
    | .idle | .lockTry | .lockCount | .unlockRelease => s.mutex.holder = 0
    | _ => True
  released : s.pc t = .unlockRelease → s.mutex.count = 0 → s.mutex.holder = 0

theorem tryLock_zero (me : Nat) : tryLock 0 me = (me, true) := by simp [tryLock]

theorem wordAdd_mod_one (n : Nat) : wordAdd (n % wordSize) 1 = (n + 1) % wordSize := by
  rw [wordAdd, Nat.mod_add_mod]

theorem wordSub_mod_one (n : Nat) : wordSub ((n + 1) % wordSize) 1 = n % wordSize := by
  rw [wordSub, Nat.mod_add_mod, show n + 1 + (wordSize - 1) = n + wordSize by
    have : 0 < wordSize := by decide
    omega, Nat.add_mod_right]

/-- One access of the only thread. -/
theorem Alone.access {myself : τ → Nat} {t : τ} {s : State τ} (h : Alone myself t s) (wish : Bool) :
    Ends (fun _ => False) (Alone myself t) (Sync.access myself (t, wish) s) := by
  obtain ⟨hint, hcount, hholder, hrel⟩ := h
  cases hpc : s.pc t with
  | idle =>
    unfold Sync.access
    refine .ok ?_
    simp only [hpc] at hint hcount hholder ⊢
    by_cases hwish : wish = true
    · rw [if_pos hwish]
      exact ⟨by simpa using hint, by simpa using hcount, fun h0 => by simpa using hholder h0, by simp⟩
    · rw [if_neg hwish]
      by_cases hpos : 0 < s.depth t
      · rw [if_pos hpos]
        have hback : s.depth t - 1 + 1 = s.depth t := Nat.sub_add_cancel hpos
        exact ⟨by simpa using hint, by simpa [hback] using hcount, by simp, by simp⟩
      · rw [if_neg hpos]
        exact ⟨by rw [hpc]; exact hint, by rw [hpc]; exact hcount,
          fun h0 => by rw [hpc]; exact hholder h0, hrel⟩
  | lockTry =>
    unfold Sync.access
    refine .ok ?_
    simp only [hpc] at hint hcount hholder ⊢
    rw [hint, tryLock_zero]
    exact ⟨by simp, by simpa using hcount, fun h0 => by simpa using hholder h0, by simp⟩
  | lockCount =>
    unfold Sync.access
    refine .ok ?_
    simp only [hpc] at hint hcount ⊢
    exact ⟨by simpa using hint, by simp [hcount, wordAdd_mod_one], by simp, by simp⟩
  | lockHolder =>
    unfold Sync.access
    refine .ok ?_
    simp only [hpc] at hint hcount ⊢
    exact ⟨by simpa using hint, by simpa using hcount, by simp, by simp⟩
  | lockRelease =>
    unfold Sync.access
    refine .ok ?_
    simp only [hpc] at hcount ⊢
    exact ⟨by simp, by simpa using hcount, by simp, by simp⟩
  | unlockTry =>
    unfold Sync.access
    refine .ok ?_
    simp only [hpc] at hint hcount ⊢
    rw [hint, tryLock_zero]
    exact ⟨by simp, by simpa using hcount, by simp, by simp⟩
  | unlockCount =>
    unfold Sync.access
    refine .ok ?_
    simp only [hpc] at hint hcount ⊢
    have hless : wordSub s.mutex.count 1 = s.depth t % wordSize := by rw [hcount, wordSub_mod_one]
    rw [hless]
    exact ⟨by simpa using hint, by simp, by simp, by simp⟩
  | unlockTest =>
    unfold Sync.access
    refine .ok ?_
    simp only [hpc] at hint hcount ⊢
    by_cases hzero : s.mutex.count = 0
    · rw [if_pos hzero]
      exact ⟨by simpa using hint, by simpa using hcount, by simp, by simp⟩
    · rw [if_neg hzero]
      refine ⟨by simpa using hint, by simpa using hcount, fun h0 => ?_, fun _ h0 => absurd h0 hzero⟩
      have hdepth : s.depth t = 0 := h0
      rw [hdepth, Nat.zero_mod] at hcount
      exact absurd hcount hzero
  | unlockRelease =>
    unfold Sync.access
    refine .ok ?_
    simp only [hpc] at hint hcount hholder ⊢
    exact ⟨by simp, by simpa using hcount, fun h0 => by simpa using hholder h0, by simp⟩

omit [DecidableEq τ] in
theorem alone_init (myself : τ → Nat) (t : τ) : Alone myself t State.init :=
  ⟨rfl, rfl, fun _ => rfl, fun _ _ => rfl⟩

omit [DecidableEq τ] in
theorem Alone.correct {myself : τ → Nat} {t : τ} {s : State τ} (h : Alone myself t s)
    (honly : ∀ u, u = t) : LockCorrect myself s := by
  refine ⟨fun u v _ _ => (honly u).trans (honly v).symm, fun u _ hpc hne => ?_, fun u hpc => ?_,
    fun hidle => ?_⟩
  · rw [honly u] at hpc
    have hint := h.internal
    rw [hpc] at hint
    exact absurd hint hne
  · rw [honly u] at hpc
    exact h.released hpc
  · obtain ⟨hpc, hout⟩ := hidle t
    have hdepth : s.depth t = 0 := Nat.eq_zero_of_not_pos hout
    have hcount := h.count
    have hholder := h.holder hdepth
    rw [hpc] at hcount hholder
    rw [hdepth, Nat.zero_mod] at hcount
    exact ⟨hcount, hholder⟩

/-- The five accesses of a call of `sys$mutex_count_lock`, begun while nobody is in the middle of a
    call. -/
theorem lock_enters {m : τ → Nat} {t : τ} {s : State τ} (hidle : s.pc t = .idle)
    (hint : s.mutex.internal = 0) :
    ∃ s', runs (access m) (List.replicate 5 (t, true)) s = .ok s' ∧ s'.mutex.internal = 0 ∧
      Inside s' t ∧ ∀ u, u ≠ t → s'.pc u = s.pc u ∧ s'.depth u = s.depth u := by
  refine ⟨_, by simp [runs, access, hidle, hint, tryLock, State.go]; rfl, rfl, ?_, fun u hu => ?_⟩
  · simp [Inside]
  · simp [hu]

/-- Two threads come in one after the other. -/
theorem no_exclusion {myself : τ → Nat}
    (h : ∀ is : List (τ × Bool), Ends (fun _ => False) (LockCorrect myself)
      (runs (access myself) is State.init)) (t u : τ) : t = u := by
  by_contra hne
  have hinit : (State.init : State τ).mutex.internal = 0 := rfl
  obtain ⟨s₁, hrun₁, hint₁, hin₁, hsame₁⟩ := lock_enters (t := t) (m := myself) rfl hinit
  obtain ⟨hpc, -⟩ := hsame₁ u fun heq => hne heq.symm
  obtain ⟨s₂, hrun₂, -, hin₂, hsame₂⟩ := lock_enters (t := u) (m := myself) hpc hint₁
  have hend := h (List.replicate 5 (t, true) ++ List.replicate 5 (u, true))
  rw [runs_append, hrun₁] at hend
  simp only [hrun₂] at hend
  cases hend with
  | ok hcorrect =>
    refine hne (hcorrect.exclusion t u ?_ hin₂)
    rw [Inside, (hsame₂ t hne).2]
    exact hin₁

/-- **Exclusion.**  The lock does what it is for, in every interleaving, exactly when no more than
    one thread uses it. -/
theorem lock_correct_iff (myself : τ → Nat) :
    (∀ is : List (τ × Bool), Ends (fun _ => False) (LockCorrect myself)
      (runs (access myself) is State.init)) ↔ Subsingleton τ := by
  constructor
  · exact fun h => ⟨no_exclusion h⟩
  · intro hsub is
    rcases isEmpty_or_nonempty τ with hempty | ⟨⟨t⟩⟩
    · cases is with
      | nil => exact .ok ⟨fun t => hempty.elim t, fun t => hempty.elim t, fun t => hempty.elim t,
          fun _ => ⟨rfl, rfl⟩⟩
      | cons i _ => exact hempty.elim i.1
    · have hrun : Ends (fun _ => False) (Alone myself t) (runs (access myself) is State.init) := by
        refine runs_induction (P := fun _ _ => True) (fun i s hs _ => ?_) is State.init
          (alone_init myself t) (Along.of_forall (fun _ _ _ => trivial) _)
        obtain rfl : t = i.1 := Subsingleton.elim _ _
        exact hs.access i.2
      exact hrun.mono fun s hs => hs.correct fun u => Subsingleton.elim u t

end

/-- Two threads lock one after the other, and both are inside. -/
theorem two_threads_inside :
    ¬ ∀ is : List (Bool × Bool), Ends (fun _ => False)
      (LockCorrect fun t => if t then 2 else 1) (runs (access fun t => if t then 2 else 1) is State.init) := by
  intro h
  exact absurd (no_exclusion h true false) (by decide)

end FreeVMS.Sync
