import FreeVMS.Rtl.VmZone
import Mathlib.Algebra.BigOperators.Group.List.Basic
import Mathlib.Algebra.Order.Group.Int

/-!
# The pool of a zone

As long as nothing is freed, the free list of a zone is one block, the upper end of its last pool, or
empty.  What holds of the pool then follows from what `lib$allocate` does to one block.
`lib$deallocate` takes the block above the returned one for the one below: it follows a null link when
there is none, and otherwise links the returned block behind it, out of order.
-/

namespace FreeVMS.Rtl.VmZone

open Alloc Tiling Run

/-! ### Sizes of 32 bits -/

theorem toInt_eq {n : Int} (h0 : -2 ^ 31 ≤ n) (h : n < 2 ^ 31) : toInt n = n := by
  rw [toInt, Int.bmod]
  split <;> omega

theorem addrAdd_eq {a : Nat} {k : Int} (h0 : 0 ≤ a + k) (h : a + k < wordSize) :
    addrAdd a k = (a + k).toNat := by
  rw [addrAdd, Int.emod_eq_of_lt h0 h]

/-! ### One block -/

/-- The free list of a zone is one block. -/
structure OneBlock (s : State) (z p : Nat) (k : Int) : Prop where
  pool : s.pool z = p
  nonnull : p ≠ 0
  last : s.flink p = 0
  size : s.wSize p = k

/-- The state in which `lib$get_vm` calls `lib$allocate`. -/
def ready (s : State) (z answer : Nat) : State :=
  if s.pool z = 0 then
    { s with
      pool := Function.update s.pool z answer
      flink := Function.update s.flink answer 0
      wSize := Function.update s.wSize answer poolBytes
      pages := (z, answer) :: s.pages }
  else s

theorem withPool_eq {s : State} {z answer : Nat} (h : s.pool z = 0 → answer ≠ 0) :
    withPool s z answer = .ok (ready s z answer) := by
  by_cases hp : s.pool z = 0
  · simp [withPool, ready, newPool, hp, h hp]
  · simp [withPool, ready, hp]

/-- A new pool is one block. -/
theorem oneBlock_ready {s : State} {z answer : Nat} (hp : s.pool z = 0) (ha : answer ≠ 0) :
    OneBlock (ready s z answer) z answer poolBytes := by
  rw [ready, if_pos hp]
  exact ⟨by simp, ha, by simp, by simp⟩

theorem ready_of_pool {s : State} {z answer : Nat} (hp : s.pool z ≠ 0) : ready s z answer = s :=
  if_neg hp

/-- The state after a request for a part of the block. -/
def cutState (s : State) (z rest : Nat) (newsize : Int) : State :=
  { s with
    pool := Function.update s.pool z rest
    flink := Function.update s.flink rest 0
    wSize := Function.update s.wSize rest newsize }

/-- **`lib$allocate` on one block**: it is cut, or taken whole, or too small. -/
theorem allocate_oneBlock {s : State} {z p fuel : Nat} {k r : Int} (h : OneBlock s z p k)
    (hfuel : 2 ≤ fuel) :
    allocate r fuel s (.pool z) =
      if r < k then
        if addrAdd p r = 0 then .error .null
        else .ok (cutState s z (addrAdd p r) (toInt (k - r)), p)
      else if r = k then .ok ({ s with pool := Function.update s.pool z 0 }, p)
      else .ok (s, 0) := by
  obtain ⟨fuel, rfl⟩ : ∃ f, fuel = f + 2 := ⟨fuel - 2, by omega⟩
  have hlink : s.link (.pool z) = p := h.pool
  have hlast : s.link (.block p) = 0 := h.last
  rw [allocate, hlink, if_neg h.nonnull, h.size]
  by_cases hlt : r < k
  · rw [if_pos (by omega), if_pos hlt, cutBlock, h.size, if_pos hlt, h.last]
    rfl
  · rw [if_neg hlt]
    by_cases heq : r = k
    · rw [if_pos (by omega), if_pos heq, cutBlock, h.size, if_neg hlt, h.last]
      rfl
    · rw [if_neg (by omega), if_neg heq, allocate, hlast, if_pos rfl]

/-- What `malloc` answers: memory below the middle of the address space that is not in use. -/
structure MallocOk (s : State) (answer : Nat) : Prop where
  nonnull : 0 < answer
  low : answer < 2 ^ 63
  fresh : ∀ p ∈ s.pages, Apart (answer, pageBytes) (p.2, pageBytes)

/-- The state after a request that is served. -/
def served (s : State) (z p n : Nat) : State := { s with live := (z, p, n) :: s.live }

/-- The block that `lib$get_vm` returns from one block, or 0. -/
theorem getVm_oneBlock {s : State} {z p n answer fuel : Nat} {k : Int}
    (h : OneBlock (ready s z answer) z p k) (ha : s.pool z = 0 → answer ≠ 0) (hfuel : 2 ≤ fuel) :
    getVm fuel z n answer s =
      if toInt n < k then
        if addrAdd p (toInt n) = 0 then .error .null
        else .ok (served (cutState (ready s z answer) z (addrAdd p (toInt n)) (toInt (k - toInt n)))
          z p n, p)
      else if toInt n = k then
        .ok (served { ready s z answer with
          pool := Function.update (ready s z answer).pool z 0 } z p n, p)
      else .ok (ready s z answer, 0) := by
  rw [getVm, withPool_eq ha]
  change (allocate (toInt n) fuel (ready s z answer) (.pool z) >>= _) = _
  rw [allocate_oneBlock h hfuel]
  split_ifs with h₁ h₂ h₃
  · rfl
  · change Except.ok _ = _
    rw [if_neg h.nonnull]
    rfl
  · change Except.ok _ = _
    rw [if_neg h.nonnull]
    rfl
  · rfl

/-- What is left of a block that was cut is one block again. -/
theorem oneBlock_cut (s : State) (z p n : Nat) {rest : Nat} (k : Int) (hrest : rest ≠ 0) :
    OneBlock (served (cutState s z rest k) z p n) z rest k :=
  ⟨by simp [served, cutState], hrest, by simp [served, cutState], by simp [served, cutState]⟩

/-! ### Blocks are backed -/

/-- The block lies inside the memory that `lib$get_vm_page` obtained for the zone. -/
def Backed (s : State) (z base n : Nat) : Prop :=
  ∃ q ∈ s.pages, q.1 = z ∧ q.2 ≤ base ∧ base + n ≤ q.2 + pageBytes

/-- A request of `g.1` bytes, where `malloc` answers `g.2`, as a step of a run on one zone. -/
def getStep (fuel z : Nat) (g : Nat × Nat) (s : State) : Except Fault State :=
  step fuel (.get z g.1 g.2) s

/-- The request returns, and what it returns is backed. -/
def GetBacked (fuel z : Nat) (g : Nat × Nat) (s : State) : Prop :=
  ∃ s' base, getVm fuel z g.1 g.2 s = .ok (s', base) ∧ Backed s' z base g.1

/-- The first `a` bytes of the one pool of the zone are taken. -/
structure Taken (s : State) (z q a : Nat) : Prop where
  low : 0 < q ∧ q < 2 ^ 63
  pages : s.pages = [(z, q)]
  block : OneBlock s z (q + a) (poolBytes - a)

/-- The zone as it is before a request, or will be when it has its pool. -/
def TakenOrNew (s : State) (z a : Nat) : Prop :=
  (s.pool z = 0 ∧ s.pages = [] ∧ a = 0) ∨ ∃ q, Taken s z q a

theorem TakenOrNew.ready {s : State} {z a answer : Nat} (h : TakenOrNew s z a)
    (hm : s.pool z = 0 → MallocOk s answer) : ∃ q, Taken (ready s z answer) z q a := by
  rcases h with ⟨hp, hpages, rfl⟩ | ⟨q, hq⟩
  · obtain ⟨hpos, hlow, -⟩ := hm hp
    refine ⟨answer, ⟨hpos, hlow⟩, ?_, ?_⟩
    · simp [VmZone.ready, hp, hpages]
    · simpa using oneBlock_ready hp (by omega : answer ≠ 0)
  · have hne : s.pool z ≠ 0 := hq.block.pool ▸ hq.block.nonnull
    exact ⟨q, by rwa [ready_of_pool hne]⟩

/-- A request that fits in the memory of the pool is cut from its one block. -/
theorem getVm_cut {s : State} {z q a n answer fuel : Nat} (hq : 0 < q ∧ q < 2 ^ 63)
    (h : OneBlock (ready s z answer) z (q + a) (poolBytes - a))
    (hm : s.pool z = 0 → MallocOk s answer) (hfuel : 2 ≤ fuel) (hfit : a + n ≤ pageBytes) :
    getVm fuel z n answer s = .ok (served (cutState (ready s z answer) z (q + (a + n))
      (poolBytes - (a + n : Nat))) z (q + a) n, q + a) := by
  obtain ⟨hpos, hlow⟩ := hq
  have hbytes : pageBytes = 10485760 := rfl
  have hpool : poolBytes = 83886080 := rfl
  have hr : toInt n = n := toInt_eq (by omega) (by omega)
  have hrest : addrAdd (q + a) n = q + (a + n) := by
    rw [addrAdd_eq (by omega) (by simp only [wordSize]; omega)]
    omega
  have hsize : toInt (poolBytes - a - n : Int) = poolBytes - (a + n : Nat) := by
    rw [toInt_eq (by omega) (by omega)]
    omega
  rw [getVm_oneBlock h (fun hp => by have := (hm hp).nonnull; omega) hfuel, hr, if_pos (by omega),
    hrest, if_neg (by omega), hsize]

/-- A request that fits in the memory of the pool. -/
theorem getVm_fits {s : State} {z q a n answer fuel : Nat} (h : Taken (ready s z answer) z q a)
    (hm : s.pool z = 0 → MallocOk s answer) (hfuel : 2 ≤ fuel) (hfit : a + n ≤ pageBytes) :
    ∃ s', getVm fuel z n answer s = .ok (s', q + a) ∧ Taken s' z q (a + n) :=
  ⟨_, getVm_cut h.low h.block hm hfuel hfit, h.low, h.pages,
    oneBlock_cut _ _ _ _ _ (by have := h.low.1; omega)⟩

/-- A request that does not. -/
theorem not_getBacked {s : State} {z q a n answer fuel : Nat} (h : Taken (ready s z answer) z q a)
    (hm : s.pool z = 0 → MallocOk s answer) (hfuel : 2 ≤ fuel) (hfit : pageBytes < a + n) :
    ¬ GetBacked fuel z (n, answer) s := by
  rintro ⟨s', base, hget, q', hq', -, hlo, hhi⟩
  rw [getVm_oneBlock h.block (fun hp => by have := (hm hp).nonnull; omega) hfuel] at hget
  have hpages : s'.pages = [(z, q)] ∧ (base = q + a ∨ base = 0) := by
    split_ifs at hget <;> obtain ⟨rfl, rfl⟩ := Prod.mk.inj (Except.ok.inj hget)
    · exact ⟨h.pages, .inl rfl⟩
    · exact ⟨h.pages, .inl rfl⟩
    · exact ⟨h.pages, .inr rfl⟩
  rw [hpages.1, List.mem_singleton] at hq'
  subst hq'
  have := h.low.1
  dsimp only at hlo hhi
  omega

theorem backed_iff_of_taken {z fuel : Nat} (hfuel : 2 ≤ fuel) : ∀ (gets : List (Nat × Nat))
    (s : State) (a : Nat), TakenOrNew s z a → a ≤ pageBytes →
    Along (getStep fuel z) (fun g s => s.pool z = 0 → MallocOk s g.2) gets s →
    (Along (getStep fuel z) (GetBacked fuel z) gets s ↔ a + (gets.map Prod.fst).sum ≤ pageBytes) := by
  intro gets
  induction gets with
  | nil => exact fun s a _ ha _ => ⟨fun _ => by simpa using ha, fun _ => trivial⟩
  | cons g gets ih =>
    intro s a h ha hmalloc
    obtain ⟨n, answer⟩ := g
    obtain ⟨q, hq⟩ := h.ready hmalloc.1
    rw [List.map_cons, List.sum_cons, ← Nat.add_assoc]
    by_cases hfit : a + n ≤ pageBytes
    · obtain ⟨s', hget, hq'⟩ := getVm_fits hq hmalloc.1 hfuel hfit
      have hstep : getStep fuel z (n, answer) s = .ok s' := by
        rw [getStep, step, hget]
        rfl
      have hbacked : GetBacked fuel z (n, answer) s :=
        ⟨s', q + a, hget, (z, q), by simp [hq'.pages], rfl, by simp, by simp; omega⟩
      rw [← ih s' (a + n) (.inr ⟨q, hq'⟩) hfit (hmalloc.2 s' hstep)]
      exact ⟨fun h => h.2 s' hstep, fun h => Along.cons hstep hbacked h⟩
    · refine ⟨fun h => absurd h.1 (not_getBacked hq hmalloc.1 hfuel (by omega)), fun h => ?_⟩
      omega

/-- **Blocks are backed** by what `lib$get_vm_page` obtained, along all requests on a zone, if and only
    if they ask for no more than that together. -/
theorem backed_iff_sum_le (flink : Nat → Nat) (wSize : Nat → Int) (z fuel : Nat) (hfuel : 2 ≤ fuel)
    (gets : List (Nat × Nat))
    (hmalloc : Along (getStep fuel z) (fun g s => s.pool z = 0 → MallocOk s g.2) gets
      (State.init flink wSize)) :
    Along (getStep fuel z) (GetBacked fuel z) gets (State.init flink wSize) ↔
      (gets.map Prod.fst).sum ≤ pageCount * 512 := by
  have h := backed_iff_of_taken hfuel gets (State.init flink wSize) 0 (.inl ⟨rfl, rfl, rfl⟩)
    (Nat.zero_le _) hmalloc
  rwa [Nat.zero_add] at h

/-- A state in which nothing was asked for, with zeros in memory. -/
def start : State := State.init (fun _ => 0) (fun _ => 0)

theorem mallocOk_start (n : Nat) : Along (getStep 2 0)
    (fun g s => s.pool 0 = 0 → MallocOk s g.2) [(n, 4096)] start :=
  ⟨fun _ => ⟨by simp, by simp, nofun⟩, fun _ _ => trivial⟩

theorem backed_small_request : Along (getStep 2 0) (GetBacked 2 0) [(4096, 4096)] start :=
  (backed_iff_sum_le (fun _ => 0) (fun _ => 0) 0 2 (by decide) [(4096, 4096)]
    (mallocOk_start 4096)).mpr (by decide)

/-- Eight bytes more than `malloc` was asked for. -/
theorem not_backed_large_request :
    ¬ Along (getStep 2 0) (GetBacked 2 0) [(10485768, 4096)] start := by
  rw [backed_iff_of_taken (by decide) _ _ 0 (.inl ⟨rfl, rfl, rfl⟩) (Nat.zero_le _)
    (mallocOk_start 10485768)]
  decide

/-! ### The invariant of the pool -/

/-- The free list from a link on: addresses and sizes. -/
def Chain (s : State) : Nat → List (Nat × Int) → Prop
  | p, [] => p = 0
  | p, b :: l => p = b.1 ∧ p ≠ 0 ∧ s.wSize p = b.2 ∧ Chain s (s.flink p) l

/-- The blocks that are live in a zone. -/
def blocks (s : State) (z : Nat) : List Tile := (s.live.filter fun b => b.1 = z).map Prod.snd

/-- The bytes of the live blocks. -/
def liveBytes (s : State) (z : Nat) : Int := ((blocks s z).map fun b => (b.2 : Int)).sum

/-- The bytes of the pools that the zone got. -/
def gotBytes (s : State) (z : Nat) : Int := poolBytes * (s.pages.filter fun p => p.1 = z).length

/-- **The pool is well**, with the free list `l`: it is in strict order of the addresses and no two
    of its blocks overlap or are adjacent, the live blocks overlap neither each other nor the free ones,
    and the free and the live bytes are those of the pool. -/
structure PoolWell (s : State) (z : Nat) (l : List (Nat × Int)) : Prop where
  chain : Chain s (s.pool z) l
  pos : ∀ c ∈ l, 0 < c.2
  order : l.Pairwise fun b c => b.1 + b.2 < (c.1 : Int)
  apart : (blocks s z).Pairwise Apart
  free : ∀ b ∈ blocks s z, ∀ c ∈ l, Apart b (c.1, c.2.toNat)
  total : (l.map Prod.snd).sum + liveBytes s z = gotBytes s z

/-- The call returns without following a null link, and the pool is well. -/
def CallWell (fuel z : Nat) (op : Op) (s : State) : Prop :=
  ∃ s' l, step fuel op s = .ok s' ∧ PoolWell s' z l

/-- The calls that are considered: requests on the zone of a multiple of 8 bytes, at least the size of
    a header, and returns of live blocks with their own size. -/
def Legal (z : Nat) (op : Op) (s : State) : Prop :=
  match op with
  | .get z' n answer => z' = z ∧ n % 8 = 0 ∧ 16 ≤ n ∧ (s.pool z = 0 → MallocOk s answer)
  | .free z' n block => z' = z ∧ (z, block, n) ∈ s.live
  | .create | .reset _ => False

/-- The size of the block that a request is tried on first. -/
def firstSize (s : State) (z : Nat) : Int := if s.pool z = 0 then poolBytes else s.wSize (s.pool z)

/-- The condition on a call: it is a request; its size is an `int`, or what is left of its size is too
    much; and a second pool, as long as its header says, does not reach into the live blocks. -/
def PoolCond (z : Nat) (op : Op) (s : State) : Prop :=
  match op with
  | .get _ n answer => (toInt n ≤ firstSize s z → n < 2 ^ 31) ∧
      (s.pool z = 0 → ∀ b ∈ blocks s z, Apart b (answer, poolBytes))
  | .create | .free _ _ _ | .reset _ => False

theorem Chain.of_oneBlock {s : State} {z p : Nat} {k : Int} (h : OneBlock s z p k)
    {l : List (Nat × Int)} (hc : Chain s (s.pool z) l) : l = [(p, k)] := by
  rw [h.pool] at hc
  match l, hc with
  | [], hc => exact absurd hc h.nonnull
  | [b], ⟨hb, _, hk, _⟩ => rw [← h.size, hk, hb]
  | b :: c :: l, ⟨_, _, _, hc⟩ =>
    rw [h.last] at hc
    exact absurd rfl hc.2.1

theorem OneBlock.chain {s : State} {z p : Nat} {k : Int} (h : OneBlock s z p k) :
    Chain s (s.pool z) [(p, k)] := by
  rw [h.pool]
  exact ⟨rfl, h.nonnull, h.size, h.last⟩

/-- The free list is one block, and all is well but that it may reach into live blocks. -/
structure OneWell (s : State) (z p : Nat) (k : Int) : Prop where
  block : OneBlock s z p k
  pos : 0 < k
  le : k ≤ poolBytes
  high : p + k ≤ (wordSize : Int)
  total : k + liveBytes s z = gotBytes s z
  apart : (blocks s z).Pairwise Apart
  sized : ∀ b ∈ blocks s z, 0 < b.1 ∧ 0 < b.2

/-- The free list is empty. -/
structure NoneWell (s : State) (z : Nat) : Prop where
  pool : s.pool z = 0
  total : liveBytes s z = gotBytes s z
  apart : (blocks s z).Pairwise Apart
  sized : ∀ b ∈ blocks s z, 0 < b.1 ∧ 0 < b.2

/-- What holds as long as nothing is freed. -/
def GetsWell (z : Nat) (s : State) : Prop :=
  NoneWell s z ∨ ∃ p k, OneWell s z p k ∧ ∀ b ∈ blocks s z, Apart b (p, k.toNat)

theorem GetsWell.poolWell {z : Nat} {s : State} (h : GetsWell z s) : ∃ l, PoolWell s z l := by
  rcases h with h | ⟨p, k, h, hfree⟩
  · refine ⟨[], h.pool, nofun, .nil, h.apart, fun _ _ => nofun, ?_⟩
    simpa using h.total
  · refine ⟨[(p, k)], h.block.chain, ?_, List.pairwise_singleton _ _, h.apart, ?_, ?_⟩
    · simpa using h.pos
    · simpa using hfree
    · simpa using h.total

theorem blocks_ready (s : State) (z answer : Nat) : blocks (ready s z answer) z = blocks s z := by
  rw [ready]
  split <;> rfl

/-- The free list of a zone before `lib$allocate` is called. -/
theorem GetsWell.ready {z answer : Nat} {s : State} (h : GetsWell z s)
    (hm : s.pool z = 0 → MallocOk s answer) :
    ∃ p k, OneWell (ready s z answer) z p k ∧ k = firstSize s z ∧
      ((s.pool z = 0 → ∀ b ∈ blocks s z, Apart b (answer, poolBytes)) ↔
        ∀ b ∈ blocks s z, Apart b (p, k.toNat)) := by
  rcases h with h | ⟨p, k, h, hfree⟩
  · obtain ⟨hpos, hlow, -⟩ := hm h.pool
    refine ⟨answer, poolBytes, ⟨oneBlock_ready h.pool (by omega), by decide, Int.le_refl _, ?_, ?_, ?_, ?_⟩,
      (if_pos h.pool).symm, ?_⟩
    · have hpool : poolBytes = 83886080 := rfl
      simp only [wordSize]
      omega
    · have hgot : gotBytes (VmZone.ready s z answer) z = gotBytes s z + poolBytes := by
        simp [gotBytes, VmZone.ready, h.pool, Int.mul_add]
      rw [hgot, liveBytes, blocks_ready, ← liveBytes, h.total, Int.add_comm]
    · rw [blocks_ready]
      exact h.apart
    · rw [blocks_ready]
      exact h.sized
    · exact ⟨fun hall => hall h.pool, fun hall _ => hall⟩
  · have hne : s.pool z ≠ 0 := h.block.pool ▸ h.block.nonnull
    refine ⟨p, k, by rwa [ready_of_pool hne], ?_, fun _ => hfree, fun _ h0 => absurd h0 hne⟩
    rw [firstSize, if_neg hne, h.block.pool, h.block.size]

@[simp] theorem blocks_served (s : State) (z p n : Nat) :
    blocks (served s z p n) z = (p, n) :: blocks s z := by
  simp [blocks, served]

@[simp] theorem liveBytes_served (s : State) (z p n : Nat) :
    liveBytes (served s z p n) z = n + liveBytes s z := by
  simp [liveBytes]

/-- A part of the block is taken. -/
theorem OneWell.cut {s : State} {z p n : Nat} {k : Int} (h : OneWell s z p k)
    (hfree : ∀ b ∈ blocks s z, Apart b (p, k.toNat)) (hn : 0 < n) (hlt : n < k) :
    GetsWell z (served (cutState s z (p + n) (k - n)) z p n) := by
  have hblocks : blocks (cutState s z (p + n) (k - n)) z = blocks s z := rfl
  have hp := h.block.nonnull
  have hhigh := h.high
  refine .inr ⟨p + n, k - n, ⟨oneBlock_cut _ _ _ _ _ (by omega), ?_, ?_, ?_, ?_, ?_, ?_⟩, ?_⟩
  · omega
  · have := h.le
    omega
  · push_cast
    omega
  · have hgot : gotBytes (served (cutState s z (p + n) (k - n)) z p n) z = gotBytes s z := rfl
    have hlive : liveBytes (cutState s z (p + n) (k - n)) z = liveBytes s z := rfl
    have := h.total
    rw [hgot, liveBytes_served, hlive]
    omega
  · rw [blocks_served, hblocks]
    refine List.Pairwise.cons (fun b hb => ?_) h.apart
    have hap := hfree b hb
    have hb := (h.sized b hb).2
    simp only [Apart] at hap ⊢
    omega
  · rw [blocks_served, hblocks]
    intro b hb
    rcases List.mem_cons.mp hb with rfl | hb
    · exact ⟨by dsimp only; omega, hn⟩
    · exact h.sized b hb
  · rw [blocks_served, hblocks]
    intro b hb
    rcases List.mem_cons.mp hb with rfl | hb
    · exact .inl (Nat.le_refl _)
    · have hap := hfree b hb
      simp only [Apart] at hap ⊢
      omega

/-- The whole block is taken. -/
theorem OneWell.whole {s : State} {z p n : Nat} {k : Int} (h : OneWell s z p k)
    (hfree : ∀ b ∈ blocks s z, Apart b (p, k.toNat)) (hk : n = k) :
    GetsWell z (served { s with pool := Function.update s.pool z 0 } z p n) := by
  have hblocks : blocks { s with pool := Function.update s.pool z 0 } z = blocks s z := rfl
  have hp := h.block.nonnull
  have hpos := h.pos
  refine .inl ⟨by simp [served], ?_, ?_, ?_⟩
  · have hlive : liveBytes { s with pool := Function.update s.pool z 0 } z = liveBytes s z := rfl
    rw [liveBytes_served, hlive, hk]
    exact h.total
  · rw [blocks_served, hblocks]
    refine List.Pairwise.cons (fun b hb => ?_) h.apart
    have hap := hfree b hb
    simp only [Apart] at hap ⊢
    omega
  · rw [blocks_served, hblocks]
    intro b hb
    rcases List.mem_cons.mp hb with rfl | hb
    · exact ⟨by dsimp only; omega, by dsimp only; omega⟩
    · exact h.sized b hb

/-- A request that meets the condition. -/
theorem get_well {z n answer fuel : Nat} {s : State} (h : GetsWell z s) (hn : 0 < n)
    (hm : s.pool z = 0 → MallocOk s answer) (hfuel : 2 ≤ fuel)
    (hcond : PoolCond z (.get z n answer) s) :
    ∃ s', step fuel (.get z n answer) s = .ok s' ∧ GetsWell z s' := by
  obtain ⟨p, k, hone, hk, hiff⟩ := h.ready hm
  have hfree : ∀ b ∈ blocks (ready s z answer) z, Apart b (p, k.toNat) := by
    rw [blocks_ready]
    exact hiff.mp hcond.2
  have hsize := hcond.1
  rw [← hk] at hsize
  rw [step, getVm_oneBlock hone.block (fun hp => by have := (hm hp).nonnull; omega) hfuel]
  by_cases hle : toInt n ≤ k
  · have hr : toInt n = n := toInt_eq (by omega) (by have := hsize hle; omega)
    rw [hr] at hle ⊢
    by_cases hlt : n < k
    · have hhigh := hone.high
      have hle' := hone.le
      have hpool : poolBytes = 83886080 := rfl
      have hp := hone.block.nonnull
      have hrest : addrAdd p n = p + n := by
        rw [addrAdd_eq (by omega) (by omega)]
        omega
      have hnew : toInt (k - n) = k - n := toInt_eq (by omega) (by omega)
      rw [if_pos hlt, hrest, if_neg (by omega), hnew]
      exact ⟨_, rfl, hone.cut hfree hn hlt⟩
    · have heq : n = k := by omega
      rw [if_neg hlt, if_pos heq]
      exact ⟨_, rfl, hone.whole hfree heq⟩
  · rw [if_neg (by omega), if_neg (by omega)]
    exact ⟨_, rfl, .inr ⟨p, k, hone, hfree⟩⟩

/-- A block that is apart from both parts of another one is apart from it. -/
theorem apart_of_parts {b : Tile} {p n k : Nat} (hb : 0 < b.2) (hn : n ≤ k) (h₁ : Apart b (p, n))
    (h₂ : Apart b (p + n, k - n)) : Apart b (p, k) := by
  simp only [Apart] at h₁ h₂ ⊢
  omega

/-- If the pool is well after a part of the block was taken, then the size was not cut and the block was
    apart from the live ones. -/
theorem OneWell.of_cut {s : State} {z p n : Nat} {k : Int} {l : List (Nat × Int)} (h : OneWell s z p k)
    (hnull : addrAdd p (toInt n) ≠ 0)
    (hwell : PoolWell (served (cutState s z (addrAdd p (toInt n)) (toInt (k - toInt n))) z p n) z l) :
    n < 2 ^ 31 ∧ ∀ b ∈ blocks s z, Apart b (p, k.toNat) := by
  have hpos := h.pos
  have hle := h.le
  have hhigh := h.high
  have htotal := h.total
  have hpool : poolBytes = 83886080 := rfl
  have hblocks : blocks (cutState s z (addrAdd p (toInt n)) (toInt (k - toInt n))) z = blocks s z := rfl
  obtain rfl := Chain.of_oneBlock (oneBlock_cut _ z p n _ hnull) hwell.chain
  have hsum := hwell.total
  have hnew := hwell.pos _ List.mem_cons_self
  simp only [List.map_cons, List.map_nil, List.sum_cons, List.sum_nil, liveBytes_served] at hsum
  change _ + (_ + liveBytes s z) = gotBytes s z at hsum
  dsimp only at hnew
  -- the bytes add up, so nothing of the size was lost
  have hsmall : n < 2 ^ 31 := by omega
  have hr : toInt n = n := toInt_eq (by omega) (by omega)
  have hsub : toInt (k - n) = k - n := by rw [hr] at hsum; omega
  rw [hr] at hwell hblocks
  have hrest : addrAdd p n = p + n := by
    rw [addrAdd_eq (by omega) (by omega)]
    omega
  rw [hrest, hsub] at hwell hblocks
  have hapart := hwell.apart
  have hfree := hwell.free
  rw [blocks_served, hblocks] at hapart hfree
  refine ⟨hsmall, fun b hb => ?_⟩
  have h₁ := (List.pairwise_cons.mp hapart).1 b hb
  have h₂ := hfree b (List.mem_cons_of_mem _ hb) _ List.mem_cons_self
  exact apart_of_parts (k := k.toNat) (h.sized b hb).2 (by omega) h₁.symm (by convert h₂ using 2; omega)

/-- The same after the whole block was taken. -/
theorem OneWell.of_whole {s : State} {z p n : Nat} {k : Int} {l : List (Nat × Int)} (h : OneWell s z p k)
    (hwell : PoolWell (served { s with pool := Function.update s.pool z 0 } z p n) z l) :
    n < 2 ^ 31 ∧ ∀ b ∈ blocks s z, Apart b (p, k.toNat) := by
  have hpos := h.pos
  have hle := h.le
  have htotal := h.total
  have hpool : poolBytes = 83886080 := rfl
  have hblocks : blocks { s with pool := Function.update s.pool z 0 } z = blocks s z := rfl
  have hnil : l = [] := by
    have hchain := hwell.chain
    simp only [served, Function.update_self] at hchain
    cases l with
    | nil => rfl
    | cons b l => exact absurd rfl hchain.2.1
  have hsum := hwell.total
  rw [hnil, liveBytes_served] at hsum
  change 0 + (_ + liveBytes s z) = gotBytes s z at hsum
  have hapart := hwell.apart
  rw [blocks_served, hblocks] at hapart
  refine ⟨by omega, fun b hb => ?_⟩
  have hk : k.toNat = n := by omega
  rw [hk]
  exact ((List.pairwise_cons.mp hapart).1 b hb).symm

/-- A request that does not meet it. -/
theorem get_not_well {z n answer fuel : Nat} {s : State} (h : GetsWell z s)
    (hm : s.pool z = 0 → MallocOk s answer) (hfuel : 2 ≤ fuel)
    (hcond : ¬ PoolCond z (.get z n answer) s) : ¬ CallWell fuel z (.get z n answer) s := by
  obtain ⟨p, k, hone, hk, hiff⟩ := h.ready hm
  rw [← blocks_ready s z answer] at hiff
  rintro ⟨s', l, hstep, hwell⟩
  rw [step, getVm_oneBlock hone.block (fun hp => by have := (hm hp).nonnull; omega) hfuel] at hstep
  split_ifs at hstep with _ hnull _
  · exact nomatch hstep
  · obtain rfl := Except.ok.inj hstep
    obtain ⟨hsmall, hfree⟩ := hone.of_cut hnull hwell
    exact hcond ⟨fun _ => hsmall, by rw [← blocks_ready s z answer]; exact hiff.mpr hfree⟩
  · obtain rfl := Except.ok.inj hstep
    obtain ⟨hsmall, hfree⟩ := hone.of_whole hwell
    exact hcond ⟨fun _ => hsmall, by rw [← blocks_ready s z answer]; exact hiff.mpr hfree⟩
  · obtain rfl := Except.ok.inj hstep
    obtain rfl := Chain.of_oneBlock hone.block hwell.chain
    refine hcond ⟨fun hle => absurd hle (by omega), ?_⟩
    rw [← blocks_ready s z answer]
    exact hiff.mpr fun b hb => hwell.free b hb _ List.mem_cons_self

/-- `lib$deallocate` follows the link of the last free block below the returned one. -/
theorem joinBlock_null {s : State} {cur : Cell} (h : s.link cur = 0) (block : Nat) (n : Int) :
    joinBlock s cur block n = .error .null := by
  rw [joinBlock, if_pos h]

/-- The returned block is put behind the block above it. -/
theorem joinBlock_above {s : State} {z p block : Nat} {k : Int} (h : OneBlock s z p k)
    (hne : block ≠ p) (hadd : addrAdd p k ≠ block) (n : Int) :
    ∃ s', joinBlock s (.pool z) block n = .ok s' ∧ s'.pool z = p ∧ s'.flink p = block ∧
      s'.wSize p = k := by
  have hpool : s.link (.pool z) = p := h.pool
  have hsize : ((s.setSize block n).setLink (.block block) 0).wSize p = k := by
    simp [State.setSize, State.setLink, hne.symm, h.size]
  refine ⟨(((s.setSize block n).setLink (.block block) 0).setLink (.block p) block).setLink
    (.block block) 0, ?_, h.pool, ?_, ?_⟩
  · rw [joinBlock, hpool, if_neg h.nonnull, h.last]
    simp [hsize, hadd]
  · simp [State.setLink, State.setSize, hne.symm]
  · simp [State.setLink, State.setSize, hne.symm, h.size]

/-- A free list in which a block is behind one above it is not in order. -/
theorem not_ordered_behind {s : State} {p block : Nat} {k : Int} {l : List (Nat × Int)} (hpos : 0 < k)
    (hblock : 0 < block) (hlt : block < p) (hlink : s.flink p = block) (hsize : s.wSize p = k)
    (hchain : Chain s p l) : ¬ l.Pairwise fun b c => b.1 + b.2 < (c.1 : Int) := by
  intro horder
  match l, hchain with
  | [], h0 =>
    rw [h0] at hlt
    omega
  | [b], ⟨_, _, _, h0⟩ =>
    have hnull : block = 0 := hlink.symm.trans h0
    omega
  | b :: c :: l, ⟨hb, _, hk, hc, _⟩ =>
    have hord := List.rel_of_pairwise_cons horder List.mem_cons_self
    rw [← hb, ← hk, ← hc, hlink, hsize] at hord
    omega

/-- **No return is well**: there is no block above the returned one, and a null link is followed, or
    the returned block ends up behind the one above it. -/
theorem free_not_well {z n block fuel : Nat} {s : State} (h : GetsWell z s) (hfuel : 2 ≤ fuel)
    (hlive : (z, block, n) ∈ s.live) : ¬ CallWell fuel z (.free z n block) s := by
  rintro ⟨s', l, hstep, hwell⟩
  have hmem : (block, n) ∈ blocks s z := by
    simp only [blocks, List.mem_map, List.mem_filter]
    exact ⟨(z, block, n), ⟨hlive, by simp⟩, rfl⟩
  obtain ⟨fuel, rfl⟩ : ∃ f, fuel = f + 2 := ⟨fuel - 2, by omega⟩
  rw [step, freeVm, deallocate] at hstep
  rcases h with h | ⟨p, k, hone, hfree⟩
  · -- nothing is free
    have hpool : s.link (.pool z) = 0 := h.pool
    have hfind : findLower s block (fuel + 2) (.pool z) = .ok (.pool z) := by
      rw [findLower, hpool, if_neg (by simp)]
    rw [hfind] at hstep
    change (joinBlock s (.pool z) block (toInt n) >>= _) = _ at hstep
    rw [joinBlock_null hpool] at hstep
    exact nomatch hstep
  · have hpool : s.link (.pool z) = p := hone.block.pool
    have hlast : s.link (.block p) = 0 := hone.block.last
    have hp := hone.block.nonnull
    by_cases hbelow : p < block
    · -- the only free block is below
      have hfind : findLower s block (fuel + 2) (.pool z) = .ok (.block p) := by
        rw [findLower, hpool, if_pos ⟨hp, hbelow⟩, findLower, hlast, if_neg (by simp)]
      rw [hfind] at hstep
      change (joinBlock s (.block p) block (toInt n) >>= _) = _ at hstep
      rw [joinBlock_null hlast] at hstep
      exact nomatch hstep
    · -- it is above
      have hfind : findLower s block (fuel + 2) (.pool z) = .ok (.pool z) := by
        rw [findLower, hpool, if_neg (by omega)]
      rw [hfind] at hstep
      change (joinBlock s (.pool z) block (toInt n) >>= _) = _ at hstep
      have hap := hfree _ hmem
      obtain ⟨hblock, hn⟩ := hone.sized _ hmem
      have hpos := hone.pos
      simp only [Apart] at hap
      dsimp only at hblock hn
      have hadd : addrAdd p k ≠ block := by
        rcases Int.lt_or_eq_of_le hone.high with hlt | heq
        · rw [addrAdd_eq (by omega) hlt]
          omega
        · rw [addrAdd, heq, Int.emod_self]
          exact hblock.ne
      obtain ⟨s₁, hjoin, hpool₁, hlink₁, hsize₁⟩ :=
        joinBlock_above hone.block (by omega) hadd (toInt n)
      rw [hjoin] at hstep
      obtain rfl := Except.ok.inj hstep
      have hchain := hwell.chain
      rw [show _ = p from hpool₁] at hchain
      exact not_ordered_behind (s := { s₁ with live := s₁.live.erase (z, block, n) }) hpos hblock (by omega)
        hlink₁ hsize₁ hchain hwell.order

theorem getsWell_init (flink : Nat → Nat) (wSize : Nat → Int) (z : Nat) :
    GetsWell z (State.init flink wSize) :=
  .inl ⟨rfl, by simp [liveBytes, gotBytes, blocks, State.init], by simp [blocks, State.init],
    by simp [blocks, State.init]⟩

theorem callWell_iff {z fuel : Nat} (hfuel : 2 ≤ fuel) (op : Op) (s : State) (h : GetsWell z s)
    (hlegal : Legal z op s) : CallWell fuel z op s ↔ PoolCond z op s := by
  match op, hlegal with
  | .get z' n answer, ⟨hz, _, hn, hm⟩ =>
    subst hz
    refine ⟨fun hwell => ?_, fun hcond => ?_⟩
    · by_contra hcond
      exact get_not_well h hm hfuel hcond hwell
    · obtain ⟨s', hstep, hs'⟩ := get_well h (by omega) hm hfuel hcond
      obtain ⟨l, hl⟩ := hs'.poolWell
      exact ⟨s', l, hstep, hl⟩
  | .free z' n block, ⟨hz, hlive⟩ =>
    subst hz
    exact ⟨fun hwell => absurd hwell (free_not_well h hfuel hlive), fun hcond => hcond.elim⟩

theorem getsWell_step {z fuel : Nat} (hfuel : 2 ≤ fuel) (op : Op) (s s' : State) (h : GetsWell z s)
    (hlegal : Legal z op s) (hcond : PoolCond z op s) (hstep : step fuel op s = .ok s') :
    GetsWell z s' := by
  match op, hlegal, hcond with
  | .get z' n answer, ⟨hz, _, hn, hm⟩, hcond =>
    subst hz
    obtain ⟨s'', hstep', hs''⟩ := get_well h (by omega) hm hfuel hcond
    obtain rfl : s'' = s' := Except.ok.inj (hstep'.symm.trans hstep)
    exact hs''

theorem pool_well_iff_of_getsWell {z fuel : Nat} (hfuel : 2 ≤ fuel) (ops : List Op) (s : State)
    (h : GetsWell z s) (hlegal : Along (step fuel) (Legal z) ops s) :
    Along (step fuel) (CallWell fuel z) ops s ↔ Along (step fuel) (PoolCond z) ops s :=
  Along.congr (fun op s => callWell_iff hfuel op s) (fun op s s' => getsWell_step hfuel op s s') ops s
    h hlegal

/-- **The pool of a zone.**  Along any requests and returns on a zone, the pool is well after every call
    and no null link is followed, if and only if no block is returned, no size is cut to another one
    that is served, and a pool that follows a used up one is not where live blocks are. -/
theorem pool_well_iff_cond (flink : Nat → Nat) (wSize : Nat → Int) (z fuel : Nat) (hfuel : 2 ≤ fuel)
    (ops : List Op) (hlegal : Along (step fuel) (Legal z) ops (State.init flink wSize)) :
    Along (step fuel) (CallWell fuel z) ops (State.init flink wSize) ↔
      Along (step fuel) (PoolCond z) ops (State.init flink wSize) :=
  pool_well_iff_of_getsWell hfuel ops _ (getsWell_init flink wSize z) hlegal

theorem pool_well_request : Along (step 2) (CallWell 2 0) [.get 0 16 4096] start :=
  (pool_well_iff_cond (fun _ => 0) (fun _ => 0) 0 2 (by decide) [.get 0 16 4096]
    ⟨⟨rfl, by decide, by decide, fun _ => ⟨by decide, by decide, nofun⟩⟩, fun _ _ => trivial⟩).mpr
    ⟨⟨fun _ => by decide, fun _ => nofun⟩, fun _ _ => trivial⟩

/-- A request and the return of its block. -/
theorem pool_not_well_return : Along (step 2) (Legal 0) [.get 0 16 4096, .free 0 16 4096] start ∧
    ¬ Along (step 2) (CallWell 2 0) [.get 0 16 4096, .free 0 16 4096] start := by
  have hlegal : Along (step 2) (Legal 0) [.get 0 16 4096, .free 0 16 4096] start := by
    refine ⟨⟨rfl, by decide, by decide, fun _ => ⟨by decide, by decide, nofun⟩⟩, fun s' hs' => ?_⟩
    obtain rfl := Except.ok.inj hs'
    exact ⟨⟨rfl, by decide⟩, fun _ _ => trivial⟩
  refine ⟨hlegal, ?_⟩
  exact (pool_well_iff_of_getsWell (by decide) _ _ (getsWell_init _ _ 0) hlegal).not.mpr
    fun h => (h.2 _ rfl).1

end FreeVMS.Rtl.VmZone
