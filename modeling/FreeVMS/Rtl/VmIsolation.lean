import FreeVMS.Rtl.VmPool

/-!
# Zones do not disturb each other

A created zone is a copy of the default zone.  When the default zone has a pool already, both hand
out the same bytes; when it has none, each zone gets memory of its own from `lib$get_vm_page`, and the
zones stay apart as long as each keeps to that memory, the header of what is left included.
`lib$reset_vm_zone` frees the first free block, which is what `malloc` returned only as long as
nothing was taken from the pool.
-/

namespace FreeVMS.Rtl.VmZone

open Alloc Tiling Run

/-- The calls that are considered: on zones that exist. -/
def IsoLegal (op : Op) (s : State) : Prop :=
  match op with
  | .create => True
  | .get z _ answer => z ≤ s.zones ∧ (s.pool z = 0 → MallocOk s answer)
  | .free _ _ _ => False
  | .reset z => z ≤ s.zones

/-- The zone that a call works on. -/
def Op.zone : Op → Option Nat
  | .create => none
  | .get z _ _ | .free z _ _ | .reset z => some z

/-- The free pools of two states are the same in a zone. -/
def SamePool (s s' : State) (z : Nat) : Prop :=
  ∀ l, Chain s (s.pool z) l ↔ Chain s' (s'.pool z) l

/-- **Isolation**: the call returns, live blocks of different zones do not overlap, and the free
    pools of the other zones are as they were. -/
def IsoWell (fuel : Nat) (op : Op) (s : State) : Prop :=
  ∃ s', step fuel op s = .ok s' ∧ (∀ b ∈ s'.live, ∀ c ∈ s'.live, b.1 ≠ c.1 → Apart b.2 c.2) ∧
    ∀ z, op.zone = some z → ∀ z', z' ≠ z → SamePool s s' z'

/-- A request fits in the memory that its zone got, with 16 bytes to spare for a header. -/
def Fits (s : State) (z n : Nat) : Prop :=
  if s.pool z = 0 then n + 16 ≤ pageBytes
  else ∃ p ∈ s.pages, p.1 = z ∧ s.pool z + n + 16 ≤ p.2 + pageBytes

/-- The condition on a call: a zone is created while the default zone has no pool; a request is more
    than the pool is said to hold, or fits in the memory of its zone; a zone is reset before anything
    was taken from its pool. -/
def IsoCond (op : Op) (s : State) : Prop :=
  match op with
  | .create => s.pool 0 = 0
  | .get z n _ => firstSize s z < toInt n ∨ Fits s z n
  | .free _ _ _ => False
  | .reset z => s.pool z = 0 ∨ (z, s.pool z) ∈ s.pages

/-- A zone without a pool. -/
structure Bare (s : State) (z : Nat) : Prop where
  pool : s.pool z = 0
  pages : ∀ p ∈ s.pages, p.1 ≠ z
  live : ∀ b ∈ s.live, b.1 ≠ z

/-- A zone with the memory at `q`, of which the first `a` bytes are taken. -/
structure Filled (s : State) (z q a : Nat) : Prop where
  low : 0 < q ∧ q < 2 ^ 63
  pages : ∀ p ∈ s.pages, p.1 = z ↔ p = (z, q)
  mem : (z, q) ∈ s.pages
  room : a + 16 ≤ pageBytes
  block : OneBlock s z (q + a) (poolBytes - a)
  live : ∀ b ∈ s.live, b.1 = z → q ≤ b.2.1 ∧ b.2.1 + b.2.2 ≤ q + a

/-- A zone that is bare or has memory of its own. -/
def Own (s : State) (z : Nat) : Prop := Bare s z ∨ ∃ q a, Filled s z q a

/-- Every zone is bare or has memory of its own, and those that are not created yet are bare. -/
structure Isolated (s : State) : Prop where
  zones : ∀ z, Own s z
  later : ∀ z, s.zones < z → s.pool z = 0
  apart : ∀ p ∈ s.pages, ∀ p' ∈ s.pages, p ≠ p' → Apart (p.2, pageBytes) (p'.2, pageBytes)

theorem Isolated.live_apart {s : State} (h : Isolated s) :
    ∀ b ∈ s.live, ∀ c ∈ s.live, b.1 ≠ c.1 → Apart b.2 c.2 := by
  intro b hb c hc hne
  rcases h.zones b.1 with hbare | ⟨q, a, hq⟩
  · exact absurd rfl (hbare.live b hb)
  rcases h.zones c.1 with hbare | ⟨q', a', hq'⟩
  · exact absurd rfl (hbare.live c hc)
  have hap := h.apart _ hq.mem _ hq'.mem fun heq => hne (Prod.mk.inj heq).1
  have hb' := hq.live b hb rfl
  have hc' := hq'.live c hc rfl
  have hroom := hq.room
  have hroom' := hq'.room
  simp only [Apart] at hap ⊢
  omega

/-- The header of another zone is not where a header is written inside the memory of a zone. -/
theorem Filled.header_ne {s : State} {z q a q₁ a₁ : Nat} (h : Filled s z q a)
    (hap : Apart (q₁, pageBytes) (q, pageBytes)) (hroom : a₁ + 16 ≤ pageBytes) : q + a ≠ q₁ + a₁ := by
  have hroom' := h.room
  simp only [Apart] at hap
  omega

theorem samePool_of_same {s s' : State} {z : Nat} (hp : s'.pool z = s.pool z)
    (h : s.pool z = 0 ∨ ∃ p k, OneBlock s z p k ∧ OneBlock s' z p k) : SamePool s s' z := by
  intro l
  rcases h with h0 | ⟨p, k, h, h'⟩
  · rw [hp, h0]
    cases l with
    | nil => exact Iff.rfl
    | cons b l => exact ⟨fun hc => absurd rfl hc.2.1, fun hc => absurd rfl hc.2.1⟩
  · constructor
    · intro hc
      rw [Chain.of_oneBlock h hc]
      exact h'.chain
    · intro hc
      rw [Chain.of_oneBlock h' hc]
      exact h.chain

theorem isolated_init (flink : Nat → Nat) (wSize : Nat → Int) : Isolated (State.init flink wSize) :=
  ⟨fun _ => .inl ⟨rfl, nofun, nofun⟩, fun _ _ => rfl, nofun⟩

/-! ### The calls -/

theorem Isolated.create {s : State} (h : Isolated s) (h0 : s.pool 0 = 0) :
    Isolated (createVmZone s) := by
  have hpool : Function.update s.pool (s.zones + 1) (s.pool 0) = s.pool := by
    rw [h0, ← h.later (s.zones + 1) (Nat.lt_succ_self _), Function.update_eq_self]
  rw [createVmZone, hpool]
  refine ⟨fun z => ?_, fun z hz => h.later z (Nat.lt_of_succ_lt hz), h.apart⟩
  rcases h.zones z with hb | ⟨q, a, hq⟩
  · exact .inl ⟨hb.pool, hb.pages, hb.live⟩
  · exact .inr ⟨q, a, hq.low, hq.pages, hq.mem, hq.room,
      ⟨hq.block.pool, hq.block.nonnull, hq.block.last, hq.block.size⟩, hq.live⟩

/-- A zone that is not touched: a header is written elsewhere, and memory and live blocks of other
    zones come and go. -/
theorem zone_frame {s s' : State} {z : Nat} (h : Own s z)
    (hpool : s'.pool z = s.pool z)
    (hhead : ∀ q a, Filled s z q a → s'.flink (q + a) = s.flink (q + a) ∧
      s'.wSize (q + a) = s.wSize (q + a))
    (hpages : ∀ p, p.1 = z → (p ∈ s'.pages ↔ p ∈ s.pages))
    (hlive : ∀ b, b.1 = z → (b ∈ s'.live ↔ b ∈ s.live)) :
    Own s' z ∧ SamePool s s' z := by
  rcases h with hb | ⟨q, a, hq⟩
  · refine ⟨.inl ⟨hpool.trans hb.pool, fun p hp hz => ?_, fun b hb' hz => ?_⟩,
      samePool_of_same hpool (.inl hb.pool)⟩
    · exact hb.pages p ((hpages p hz).mp hp) hz
    · exact hb.live b ((hlive b hz).mp hb') hz
  · obtain ⟨hlink, hsize⟩ := hhead q a hq
    have hblock : OneBlock s' z (q + a) (poolBytes - a) :=
      ⟨hpool.trans hq.block.pool, hq.block.nonnull, hlink.trans hq.block.last,
        hsize.trans hq.block.size⟩
    refine ⟨.inr ⟨q, a, hq.low, fun p hp => ⟨fun hz => ?_, fun hp' => by rw [hp']⟩,
      (hpages _ rfl).mpr hq.mem, hq.room, hblock, fun b hb hz => ?_⟩,
      samePool_of_same hpool (.inr ⟨_, _, hq.block, hblock⟩)⟩
    · exact (hq.pages p ((hpages p hz).mp hp)).mp hz
    · exact hq.live b ((hlive b hz).mp hb) hz

/-- The zones of a state whose other zones are as before. -/
theorem Isolated.of_others {s s' : State} {z : Nat} (h : Isolated s) (hz : s'.zones = s.zones)
    (hzone : Own s' z) (hlater : s'.zones < z → s'.pool z = 0)
    (hother : ∀ z', z' ≠ z → s'.pool z' = s.pool z' ∧ Own s' z')
    (hapart : ∀ p ∈ s'.pages, ∀ p' ∈ s'.pages, p ≠ p' → Apart (p.2, pageBytes) (p'.2, pageBytes)) :
    Isolated s' := by
  refine ⟨fun z' => ?_, fun z' hlt => ?_, hapart⟩
  · by_cases hz' : z' = z
    · rw [hz']
      exact hzone
    · exact (hother z' hz').2
  · by_cases hz' : z' = z
    · rw [hz'] at hlt ⊢
      exact hlater hlt
    · rw [(hother z' hz').1]
      exact h.later z' (hz ▸ hlt)

/-- The zone gets its pool. -/
theorem Isolated.ready {s : State} {z answer : Nat} (h : Isolated s) (hz : z ≤ s.zones)
    (hm : s.pool z = 0 → MallocOk s answer) :
    Isolated (ready s z answer) ∧ (∀ z', z' ≠ z → SamePool s (ready s z answer) z') ∧
      (∃ q a, Filled (ready s z answer) z q a) := by
  by_cases hp : s.pool z = 0
  swap
  · rw [ready_of_pool hp]
    refine ⟨h, fun _ _ _ => Iff.rfl, ?_⟩
    rcases h.zones z with hb | hq
    · exact absurd hb.pool hp
    · exact hq
  have hbare : Bare s z := by
    rcases h.zones z with hb | ⟨q, a, hq⟩
    · exact hb
    · exact absurd (hq.block.pool.symm.trans hp) hq.block.nonnull
  obtain ⟨hpos, hlow, hfresh⟩ := hm hp
  have hother : ∀ z', z' ≠ z → Own (VmZone.ready s z answer) z' ∧
      SamePool s (VmZone.ready s z answer) z' := by
    intro z' hz'
    rw [VmZone.ready, if_pos hp]
    refine zone_frame (h.zones z') (Function.update_of_ne hz' _ _) (fun q a hq => ?_) (fun p hpz => ?_)
      fun _ _ => Iff.rfl
    · have hne := hq.header_ne (hfresh _ hq.mem) (by decide : 0 + 16 ≤ pageBytes)
      exact ⟨Function.update_of_ne hne _ _, Function.update_of_ne hne _ _⟩
    · rw [List.mem_cons]
      refine ⟨fun h => h.resolve_left fun heq => hz' ?_, .inr⟩
      rw [← hpz, heq]
  have hfilled : Filled (VmZone.ready s z answer) z answer 0 := by
    have hblock := oneBlock_ready hp (by omega : answer ≠ 0)
    have hpages : (VmZone.ready s z answer).pages = (z, answer) :: s.pages := by
      simp [VmZone.ready, hp]
    have hlive : (VmZone.ready s z answer).live = s.live := by simp [VmZone.ready, hp]
    refine ⟨⟨hpos, hlow⟩, fun p hmem => ?_, by simp [hpages], by decide, by simpa using hblock, ?_⟩
    · rw [hpages, List.mem_cons] at hmem
      refine ⟨fun hpz => ?_, fun heq => by rw [heq]⟩
      exact hmem.resolve_right fun hmem => hbare.pages p hmem hpz
    · rw [hlive]
      exact fun b hb hbz => absurd hbz (hbare.live b hb)
  have hzones : (VmZone.ready s z answer).zones = s.zones := by simp [VmZone.ready, hp]
  refine ⟨h.of_others hzones (.inr ⟨answer, 0, hfilled⟩)
    (fun hlt => absurd hlt (Nat.not_lt.mpr (hzones ▸ hz)))
    (fun z' hz' => ⟨by simp [VmZone.ready, hp, hz'], (hother z' hz').1⟩) ?_,
    fun z' hz' => (hother z' hz').2, answer, 0, hfilled⟩
  rw [VmZone.ready, if_pos hp]
  intro p hp p' hp' hne
  rcases List.mem_cons.mp hp with rfl | hp <;> rcases List.mem_cons.mp hp' with rfl | hp'
  · exact absurd rfl hne
  · exact hfresh p' hp'
  · exact (hfresh p hp).symm
  · exact h.apart p hp p' hp' hne

/-- A part of the pool is taken. -/
theorem Isolated.cut {s : State} {z q a n : Nat} (h : Isolated s) (hz : z ≤ s.zones)
    (hq : Filled s z q a) (hfit : a + n + 16 ≤ pageBytes) :
    Isolated (served (cutState s z (q + (a + n)) (poolBytes - (a + n : Nat))) z (q + a) n) ∧
      ∀ z', z' ≠ z →
        SamePool s (served (cutState s z (q + (a + n)) (poolBytes - (a + n : Nat))) z (q + a) n) z' := by
  have hrest : q + (a + n) ≠ 0 := by
    have := hq.low.1
    omega
  have hother : ∀ z', z' ≠ z →
      Own (served (cutState s z (q + (a + n)) (poolBytes - (a + n : Nat))) z (q + a) n) z' ∧
      SamePool s (served (cutState s z (q + (a + n)) (poolBytes - (a + n : Nat))) z (q + a) n) z' := by
    intro z' hz'
    refine zone_frame (h.zones z') (Function.update_of_ne hz' _ _) (fun q' a' hq' => ?_)
      (fun _ _ => Iff.rfl) fun b hb => ?_
    · have hap := h.apart _ hq.mem _ hq'.mem fun heq => hz' (Prod.mk.inj heq).1.symm
      have hne := hq'.header_ne hap hfit
      exact ⟨Function.update_of_ne hne _ _, Function.update_of_ne hne _ _⟩
    · refine ⟨fun hmem => (List.mem_cons.mp hmem).resolve_left fun heq => hz' ?_,
        List.mem_cons_of_mem _⟩
      rw [← hb, heq]
  have hfilled : Filled (served (cutState s z (q + (a + n)) (poolBytes - (a + n : Nat))) z (q + a) n)
      z q (a + n) := by
    refine ⟨hq.low, hq.pages, hq.mem, hfit, oneBlock_cut _ _ _ _ _ hrest, fun b hb hbz => ?_⟩
    rcases List.mem_cons.mp hb with rfl | hb
    · dsimp only
      omega
    · have := hq.live b hb hbz
      omega
  refine ⟨h.of_others rfl (.inr ⟨q, a + n, hfilled⟩) (fun hlt => absurd hlt (Nat.not_lt.mpr hz))
    (fun z' hz' => ⟨Function.update_of_ne hz' _ _, (hother z' hz').1⟩) h.apart,
    fun z' hz' => (hother z' hz').2⟩

theorem Isolated.reset {s : State} {z : Nat} (h : Isolated s)
    (hcond : s.pool z = 0 ∨ (z, s.pool z) ∈ s.pages) :
    ∃ s', resetVmZone z s = .ok s' ∧ Isolated s' ∧ ∀ z', z' ≠ z → SamePool s s' z' := by
  -- whatever is freed, it is the memory of the zone and no other
  obtain ⟨pages, hfree, hpages, hnone⟩ : ∃ pages, freePool s z = .ok { s with pages := pages } ∧
      (∀ p, p.1 ≠ z → (p ∈ pages ↔ p ∈ s.pages)) ∧ ∀ p ∈ pages, p ∈ s.pages ∧ p.1 ≠ z := by
    rcases h.zones z with hb | ⟨q, a, hq⟩
    · refine ⟨s.pages, by rw [freePool, if_pos hb.pool], fun _ _ => Iff.rfl, fun p hp => ?_⟩
      exact ⟨hp, hb.pages p hp⟩
    · have hpool := hq.block.pool
      have hne : s.pool z ≠ 0 := hpool ▸ hq.block.nonnull
      have hmem := hcond.resolve_left hne
      have hpq : s.pool z = q := (Prod.mk.inj ((hq.pages _ hmem).mp rfl)).2
      refine ⟨s.pages.filter fun p => p.2 ≠ s.pool z, ?_, fun p hpz => ?_, fun p hp => ?_⟩
      · rw [freePool, if_neg hne, if_pos ⟨_, hmem, rfl⟩]
      · refine ⟨fun hp => (List.mem_filter.mp hp).1, fun hp => List.mem_filter.mpr ⟨hp, ?_⟩⟩
        have hap := h.apart _ hp _ hmem fun heq => hpz (congrArg Prod.fst heq)
        have hbytes : pageBytes = 10485760 := rfl
        simp only [Apart] at hap
        simp only [decide_eq_true_eq]
        omega
      · obtain ⟨hp, hp2⟩ := List.mem_filter.mp hp
        refine ⟨hp, fun hpz => ?_⟩
        rw [(hq.pages p hp).mp hpz] at hp2
        simp [hpq] at hp2
  obtain ⟨s', hs', heq⟩ : ∃ s', resetVmZone z s = .ok s' ∧ s' = { s with
      pages := pages, pool := Function.update s.pool z 0, live := s.live.filter fun b => b.1 ≠ z } := by
    rw [resetVmZone, hfree]
    exact ⟨_, rfl, rfl⟩
  have hpool : ∀ z', z' ≠ z → s'.pool z' = s.pool z' := fun z' hz' => by
    rw [heq]
    exact Function.update_of_ne hz' _ _
  have hother : ∀ z', z' ≠ z → Own s' z' ∧ SamePool s s' z' := fun z' hz' =>
    zone_frame (h.zones z') (hpool z' hz') (fun _ _ _ => by rw [heq]; exact ⟨rfl, rfl⟩)
      (fun p hp => by rw [heq]; exact hpages p (hp ▸ hz'))
      fun b hb => by simp [heq, hb, hz']
  have hbare : Bare s' z := by
    rw [heq]
    exact ⟨Function.update_self .., fun p hp => (hnone p hp).2,
      fun b hb => by simpa using (List.mem_filter.mp hb).2⟩
  refine ⟨s', hs', h.of_others (by rw [heq]) (.inl hbare) (fun _ => hbare.pool)
    (fun z' hz' => ⟨hpool z' hz', (hother z' hz').1⟩) ?_, fun z' hz' => (hother z' hz').2⟩
  rw [heq]
  exact fun p hp p' hp' => h.apart p (hnone p hp).1 p' (hnone p' hp').1

/-- The first block that a request is tried on, when the zone has its pool. -/
theorem firstSize_ready (s : State) (z answer : Nat) :
    firstSize s z = (ready s z answer).wSize ((ready s z answer).pool z) := by
  by_cases hp : s.pool z = 0
  · simp [firstSize, ready, hp]
  · rw [firstSize, if_neg hp, ready_of_pool hp]

/-- A request that fits fits behind what is taken already. -/
theorem Filled.fits {s : State} {z q a n answer : Nat} (h : Filled (ready s z answer) z q a)
    (hfit : Fits s z n) : a + n + 16 ≤ pageBytes := by
  have hpool := h.block.pool
  obtain ⟨p, hp, hpz, hle⟩ : ∃ p ∈ (ready s z answer).pages, p.1 = z ∧
      (ready s z answer).pool z + n + 16 ≤ p.2 + pageBytes := by
    by_cases h0 : s.pool z = 0
    · rw [Fits, if_pos h0] at hfit
      exact ⟨(z, answer), by simp [ready, h0], rfl, by simp [ready, h0]; omega⟩
    · rw [Fits, if_neg h0] at hfit
      rwa [ready_of_pool h0]
  rw [(h.pages p hp).mp hpz, hpool] at hle
  dsimp only at hle
  omega

theorem Isolated.get {s : State} {z n answer fuel : Nat} (h : Isolated s) (hfuel : 2 ≤ fuel)
    (hz : z ≤ s.zones) (hm : s.pool z = 0 → MallocOk s answer)
    (hcond : firstSize s z < toInt n ∨ Fits s z n) :
    ∃ s', step fuel (.get z n answer) s = .ok s' ∧ Isolated s' ∧
      ∀ z', z' ≠ z → SamePool s s' z' := by
  obtain ⟨hready, hsame, q, a, hq⟩ := h.ready hz hm
  rw [step]
  rcases hcond with hmore | hfit
  · -- refused
    rw [firstSize_ready s z answer, hq.block.pool, hq.block.size] at hmore
    rw [getVm_oneBlock hq.block (fun hp => by have := (hm hp).nonnull; omega) hfuel,
      if_neg (by omega), if_neg (by omega)]
    exact ⟨_, rfl, hready, hsame⟩
  · have hroom := hq.fits hfit
    have hz' : z ≤ (VmZone.ready s z answer).zones := by
      rw [VmZone.ready]
      split <;> exact hz
    obtain ⟨hcut, hsame'⟩ := hready.cut hz' hq hroom
    rw [getVm_cut hq.low hq.block hm hfuel (by omega)]
    exact ⟨_, rfl, hcut, fun z' hz' l => (hsame z' hz' l).trans (hsame' z' hz' l)⟩

theorem isolated_step {op : Op} {s : State} {fuel : Nat} (h : Isolated s) (hfuel : 2 ≤ fuel)
    (hlegal : IsoLegal op s) (hcond : IsoCond op s) :
    ∃ s', step fuel op s = .ok s' ∧ Isolated s' ∧
      ∀ z, op.zone = some z → ∀ z', z' ≠ z → SamePool s s' z' := by
  match op, hlegal, hcond with
  | .create, _, hcond => exact ⟨_, rfl, h.create hcond, nofun⟩
  | .get z n answer, ⟨hz, hm⟩, hcond =>
    obtain ⟨s', hs', hiso, hsame⟩ := h.get hfuel hz hm hcond
    exact ⟨s', hs', hiso, fun z' hz' => Option.some.inj hz' ▸ hsame⟩
  | .reset z, _, hcond =>
    obtain ⟨s', hs', hiso, hsame⟩ := h.reset hcond
    exact ⟨s', hs', hiso, fun z' hz' => Option.some.inj hz' ▸ hsame⟩

/-- **Zone isolation.**  Along any calls on the default zone and the created ones that meet the
    condition, live blocks of different zones never overlap, and a request or a reset of one zone leaves
    the free pools of the others as they are. -/
theorem zones_isolated (flink : Nat → Nat) (wSize : Nat → Int) (fuel : Nat) (hfuel : 2 ≤ fuel)
    (ops : List Op) (hlegal : Along (step fuel) IsoLegal ops (State.init flink wSize))
    (hcond : Along (step fuel) IsoCond ops (State.init flink wSize)) :
    Along (step fuel) (IsoWell fuel) ops (State.init flink wSize) := by
  refine Along.of_inv (fun op s h hL => ?_) (fun op s s' h hL hs' => ?_) ops _
    (isolated_init flink wSize) (hlegal.and hcond)
  · obtain ⟨s', hs', hiso, hsame⟩ := isolated_step h hfuel hL.1 hL.2
    exact ⟨s', hs', hiso.live_apart, hsame⟩
  · obtain ⟨s'', hs'', hiso, -⟩ := isolated_step h hfuel hL.1 hL.2
    obtain rfl : s'' = s' := Except.ok.inj (hs''.symm.trans hs')
    exact hiso

/-- A zone that is created before the first request. -/
theorem zones_isolated_created_first :
    Along (step 2) (IsoWell 2) [.create, .get 1 16 4096, .reset 0] start := by
  refine zones_isolated (fun _ => 0) (fun _ => 0) 2 (by decide) _ ?_ ?_
  · refine ⟨trivial, fun s₁ h₁ => ?_⟩
    obtain rfl := Except.ok.inj h₁
    refine ⟨⟨by decide, fun _ => ⟨by decide, by decide, nofun⟩⟩, fun s₂ h₂ => ?_⟩
    obtain rfl := Except.ok.inj h₂
    exact ⟨Nat.zero_le _, fun _ _ => trivial⟩
  · refine ⟨rfl, fun s₁ h₁ => ?_⟩
    obtain rfl := Except.ok.inj h₁
    have hfits : Fits (createVmZone start) 1 16 := by
      rw [Fits, if_pos (by decide)]
      decide
    refine ⟨.inr hfits, fun s₂ h₂ => ?_⟩
    obtain rfl := Except.ok.inj h₂
    exact ⟨.inl rfl, fun _ _ => trivial⟩

/-- A zone that is created after it: both hand out the bytes from 4112 on. -/
theorem zones_not_isolated :
    Along (step 2) IsoLegal [.get 0 16 4096, .create, .get 1 16 0, .get 0 16 0] start ∧
      ¬ Along (step 2) (IsoWell 2) [.get 0 16 4096, .create, .get 1 16 0, .get 0 16 0] start := by
  constructor
  · refine ⟨⟨by decide, fun _ => ⟨by decide, by decide, nofun⟩⟩, fun s₁ h₁ => ?_⟩
    obtain rfl := Except.ok.inj h₁
    refine ⟨trivial, fun s₂ h₂ => ?_⟩
    obtain rfl := Except.ok.inj h₂
    refine ⟨⟨by decide, fun h => absurd h (by decide)⟩, fun s₃ h₃ => ?_⟩
    obtain rfl := Except.ok.inj h₃
    exact ⟨⟨by decide, fun h => absurd h (by decide)⟩, fun _ _ => trivial⟩
  · intro h
    obtain ⟨s₄, h₄, hap, -⟩ := (((h.2 _ rfl).2 _ rfl).2 _ rfl).1
    obtain rfl := Except.ok.inj h₄
    have hsame := hap (0, 4112, 16) (by decide) (1, 4112, 16) (by decide) (by decide)
    simp [Apart] at hsame

end FreeVMS.Rtl.VmZone
