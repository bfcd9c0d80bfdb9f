import FreeVMS.Heap.FreeSpec

/-!
# Allocating a block

One turn of the search of `sys$alloc`, the block that is cut off, and `sys$morecore`.
-/

namespace FreeVMS.Heap

open Alloc LinkRing Tiling

section

variable {A : Arena} {s : Memory} {fs l r : List Nat} {live : List (Nat × Nat)} {t prev cur fuel : Nat}

/-! ### The search -/

/-- A turn from `prevp` on, over the headers `vs` and then `freep`. -/
theorem allocScan_spec : ∀ (vs : List Nat) (prevp fuel : Nat), Path s.ptr prevp vs s.freep →
    s.freep ∉ vs → vs.length < fuel →
    (∃ prev ∈ prevp :: vs, t ≤ s.size (s.ptr prev) ∧
        allocScan s t fuel prevp (s.ptr prevp) = .ok (.found prev (s.ptr prev))) ∨
      ((∀ v ∈ vs ++ [s.freep], s.size v < t) ∧
        allocScan s t fuel prevp (s.ptr prevp) = .ok .wrapped) := by
  intro vs
  induction vs with
  | nil =>
    intro prevp fuel hpath _ hfuel
    obtain ⟨fuel, rfl⟩ : ∃ k, fuel = k + 1 := ⟨fuel - 1, by omega⟩
    have hnext : s.ptr prevp = s.freep := hpath
    by_cases hbig : s.size (s.ptr prevp) ≥ t
    · exact .inl ⟨prevp, List.mem_cons_self, hbig, by rw [allocScan, if_pos hbig]⟩
    · refine .inr ⟨?_, by rw [allocScan, if_neg hbig, if_pos hnext]⟩
      simpa [hnext] using hbig
  | cons v vs ih =>
    intro prevp fuel hpath hnot hfuel
    obtain ⟨fuel, rfl⟩ : ∃ k, fuel = k + 1 := ⟨fuel - 1, by omega⟩
    obtain ⟨hnext, hrest⟩ := hpath
    by_cases hbig : s.size (s.ptr prevp) ≥ t
    · exact .inl ⟨prevp, List.mem_cons_self, hbig, by rw [allocScan, if_pos hbig]⟩
    · have hne : ¬ s.ptr prevp = s.freep := by
        rw [hnext]
        exact fun heq => hnot (heq ▸ List.mem_cons_self)
      rw [allocScan, if_neg hbig, if_neg hne]
      rw [hnext] at hbig ⊢
      rcases ih v fuel hrest (fun hmem => hnot (List.mem_cons_of_mem _ hmem)) (by simpa using hfuel) with
        ⟨prev, hprev, hsize, hscan⟩ | ⟨hsmall, hscan⟩
      · exact .inl ⟨prev, List.mem_cons_of_mem _ hprev, hsize, hscan⟩
      · refine .inr ⟨fun w hw => ?_, hscan⟩
        rcases List.mem_cons.mp hw with rfl | hw
        · omega
        · exact hsmall w hw

theorem HInv.parts (h : HInv A s fs live) : A.lo ≤ s.bss ∧ (A.base :: fs).Nodup ∧
    ∀ x ∈ fs, A.lo ≤ x ∧ x + 16 * s.size x ≤ s.bss ∧ 0 < s.size x := by
  have hout := A.outside
  have hbelow := h.below
  have hin : ∀ x ∈ fs, A.lo ≤ x ∧ x + 16 * s.size x ≤ s.bss ∧ 0 < s.size x := by
    intro x hx
    have hmem : blk s.size x ∈ tilesOf s.size fs live := mem_tilesOf.mpr (.inl ⟨x, hx, rfl⟩)
    have hi := h.tiles.inside _ hmem
    have hp := h.tiles.pos _ hmem
    simp only [blk] at hi hp
    exact ⟨hi.1, hi.2, by omega⟩
  refine ⟨?_, List.nodup_cons.mpr ⟨fun hmem => ?_, h.ascending.imp fun hlt => by omega⟩, hin⟩
  · have ht := h.tiles.total
    omega
  · have hb := hin A.base hmem
    omega

/-- **The search.**  A turn from `freep` on finds a block that is big enough if there is one. -/
theorem HInv.scan (h : HInv A s fs live) (ht : 0 < t) (hfuel : A.rounds ≤ fuel) :
    (∃ prev cur, allocScan s t fuel s.freep (s.ptr s.freep) = .ok (.found prev cur) ∧
        prev ∈ A.base :: fs ∧ s.ptr prev = cur ∧ cur ∈ fs ∧ t ≤ s.size cur) ∨
      ((∀ f ∈ fs, s.size f < t) ∧ allocScan s t fuel s.freep (s.ptr s.freep) = .ok .wrapped) := by
  have hlen := length_lt_rounds h.below h.tiles
  obtain ⟨-, hnodup, -⟩ := h.parts
  obtain ⟨vs, hpath, hperm⟩ := h.ring.rotate h.freep
  have hvs : (s.freep :: vs).Nodup := hperm.nodup_iff.mpr hnodup
  have hvslen : vs.length = fs.length := by simpa using hperm.length_eq
  rcases allocScan_spec (t := t) vs s.freep fuel hpath (List.nodup_cons.mp hvs).1 (by omega) with
    ⟨prev, hprev, hsize, hscan⟩ | ⟨hsmall, hscan⟩
  · refine .inl ⟨prev, s.ptr prev, hscan, hperm.mem_iff.mp hprev, rfl, ?_, hsize⟩
    have hmem := h.ring.next_mem prev (hperm.mem_iff.mp hprev)
    rcases List.mem_append.mp hmem with hcur | hcur
    · exact hcur
    · rw [List.mem_singleton.mp hcur, h.zero] at hsize
      omega
  · refine .inr ⟨fun f hf => ?_, hscan⟩
    have hmem : f ∈ s.freep :: vs := hperm.mem_iff.mpr (List.mem_cons_of_mem _ hf)
    exact hsmall f (by simpa [or_comm] using hmem)

/-! ### The block -/

/-- What a successful call leaves: the block `q` with `t` headers is no longer free. -/
structure Given (A : Arena) (s' : Memory) (live : List (Nat × Nat)) (q t : Nat) : Prop where
  size : s'.size q = t
  inv : ∀ n, n + 16 ≤ 16 * t → ∃ fs', HInv A s' fs' ((q, n) :: live)

theorem tilesOf_cons {size : Nat → Nat} {q n : Nat} :
    (blk size q :: tilesOf size fs live).Perm (tilesOf size fs ((q, n) :: live)) := by
  simp only [tilesOf, List.map_cons]
  exact List.perm_middle.symm

/-- The whole block is taken. -/
theorem HInv.take_whole (h : HInv A s (l ++ cur :: r) live) (ht : s.size cur = t) :
    Given A { s with ptr := Function.update s.ptr (lastOf A.base l) (s.ptr cur), freep := lastOf A.base l }
      live cur t := by
  obtain ⟨-, hnodup, -⟩ := h.parts
  refine ⟨ht, fun n hn => ⟨l ++ r, ⟨?_, h.zero, ?_, ?_, h.below⟩, ?_, ?_⟩⟩
  · exact h.ring.unlink hnodup
  · show lastOf A.base l ∈ A.base :: (l ++ r)
    rcases List.mem_cons.mp (lastOf_mem A.base l) with heq | hmem
    · simp [heq]
    · simp [hmem]
  · exact h.ascending.sublist ((List.sublist_cons_self cur r).append_left l)
  · exact h.tiles.perm (tilesOf_middle.trans tilesOf_cons)
  · intro x hx
    rcases List.mem_cons.mp hx with rfl | hx
    · show n + 16 ≤ 16 * s.size cur
      rwa [ht]
    · exact h.room x hx

/-- The end of a block is taken. -/
theorem HInv.take_end (h : HInv A s (l ++ cur :: r) live) (ht : 0 < t) (hlt : t < s.size cur)
    (hprev : prev ∈ A.base :: (l ++ cur :: r)) :
    Given A { s with
      size := Function.update (Function.update s.size cur (s.size cur - t))
        (cur + 16 * (s.size cur - t)) t
      freep := prev } live (cur + 16 * (s.size cur - t)) t := by
  obtain ⟨hlo, hnodup, hin⟩ := h.parts
  have hout := A.outside
  have hbelow := h.below
  have hcur := hin cur (by simp)
  generalize hrest : s.size cur - t = rest
  have hsum : 16 * s.size cur = 16 * rest + 16 * t := by omega
  -- the tiles with the block cut in two
  have htiles : Tiles A.lo s.bss ((cur, 16 * rest) :: (cur + 16 * rest, 16 * t) ::
      tilesOf s.size (l ++ r) live) := by
    refine Tiles.split ?_ (by omega) (by omega)
    rw [← hsum]
    exact h.tiles.perm tilesOf_middle
  have hcurne : ∀ b ∈ tilesOf s.size (l ++ r) live, cur ≠ b.1 := fun b hb =>
    htiles.ne (List.mem_cons_of_mem _ hb)
  have hqne : ∀ b ∈ tilesOf s.size (l ++ r) live, cur + 16 * rest ≠ b.1 := fun b hb =>
    (htiles.perm (List.Perm.swap _ _ _)).ne (List.mem_cons_of_mem _ hb)
  have hfree : ∀ x ∈ l ++ r, x ≠ cur ∧ x ≠ cur + 16 * rest := fun x hx =>
    have hmem := mem_tilesOf.mpr (.inl ⟨x, hx, rfl⟩)
    ⟨(hcurne _ hmem).symm, (hqne _ hmem).symm⟩
  have hused : ∀ x ∈ live, x.1 ≠ cur ∧ x.1 ≠ cur + 16 * rest := fun x hx =>
    have hmem := mem_tilesOf.mpr (.inr ⟨x, hx, rfl⟩)
    ⟨(hcurne _ hmem).symm, (hqne _ hmem).symm⟩
  generalize hsize : Function.update (Function.update s.size cur rest) (cur + 16 * rest) t = size'
  have hother : ∀ v, v ≠ cur → v ≠ cur + 16 * rest → size' v = s.size v := by
    intro v h1 h2
    rw [← hsize, Function.update_of_ne h2, Function.update_of_ne h1]
  have hcursize : size' cur = rest := by
    rw [← hsize, Function.update_of_ne (by omega), Function.update_self]
  have hqsize : size' (cur + 16 * rest) = t := by rw [← hsize, Function.update_self]
  have htiles' : tilesOf size' (l ++ r) live = tilesOf s.size (l ++ r) live := by
    rw [← hsize, tilesOf_update (fun hmem => (hfree _ hmem).2 rfl) fun x hx => (hused x hx).2,
      tilesOf_update (fun hmem => (hfree _ hmem).1 rfl) fun x hx => (hused x hx).1]
  refine ⟨hqsize, fun n hn => ⟨l ++ cur :: r, ⟨h.ring, ?_, hprev, ?_, hbelow⟩, ?_, ?_⟩⟩
  · exact (hother A.base (by omega) (by omega)).trans h.zero
  · refine h.ascending.imp_of_mem fun {a b} ha _ hab => ?_
    have hle : size' a ≤ s.size a := by
      simp only [List.mem_append, List.mem_cons] at ha
      rcases ha with ha | rfl | ha
      · have hne := hfree a (List.mem_append_left _ ha)
        rw [hother a hne.1 hne.2]
      · rw [hcursize]
        omega
      · have hne := hfree a (List.mem_append_right _ ha)
        rw [hother a hne.1 hne.2]
    show a + 16 * size' a < b
    omega
  · refine Tiles.perm ?_ ((List.Perm.cons _ tilesOf_middle.symm).trans tilesOf_cons)
    simp only [blk, hqsize, hcursize, htiles']
    exact htiles.perm (List.Perm.swap _ _ _)
  · intro x hx
    rcases List.mem_cons.mp hx with rfl | hx
    · show n + 16 ≤ 16 * size' (cur + 16 * rest)
      rwa [hqsize]
    · show x.2 + 16 ≤ 16 * size' x.1
      rw [hother x.1 (hused x hx).1 (hused x hx).2]
      exact h.room x hx

/-- **Taking.**  The block that was found, or its end, is taken out of the ring. -/
theorem HInv.takeBlock (h : HInv A s fs live) (ht : 0 < t) (hprev : prev ∈ A.base :: fs)
    (hnext : s.ptr prev = cur) (hcur : cur ∈ fs) (hsize : t ≤ s.size cur) :
    ∃ q s', takeBlock s t prev cur = (q + 16, s') ∧ Given A s' live q t := by
  obtain ⟨hlo, hnodup, hin⟩ := h.parts
  have hbelow := h.below
  have hhigh := A.high
  have hcurin := hin cur hcur
  obtain ⟨l, r, rfl⟩ := List.append_of_mem hcur
  have hlast : prev = lastOf A.base l := by
    have hmem : lastOf A.base l ∈ A.base :: (l ++ cur :: r) := by
      rcases List.mem_cons.mp (lastOf_mem A.base l) with heq | hmem
      · simp [heq]
      · simp [hmem]
    exact h.ring.next_inj hnodup hprev hmem (hnext.trans h.ring.drop.1.symm)
  have hhdr : ∀ a n, a + 16 * n ≤ s.bss → hdr a n = a + 16 * n := fun a n hle => hdr_eq hle hbelow
  by_cases heq : s.size cur = t
  · rw [Heap.takeBlock, if_pos heq, hlast, hhdr cur 1 (by omega)]
    exact ⟨cur, _, rfl, h.take_whole heq⟩
  · rw [Heap.takeBlock, if_neg heq]
    simp only [hhdr cur (s.size cur - t) (by omega)]
    rw [hhdr _ 1 (by omega)]
    exact ⟨_, _, rfl, h.take_end ht (by omega) hprev⟩

/-! ### `sys$morecore` -/

theorem Arena.perPage_spec (A : Arena) : 0 < A.perPage ∧ A.perPage ≤ 2 ^ 26 := by
  have hge : (2 : Nat) ^ 10 ≤ 2 ^ A.bits := Nat.pow_le_pow_right (by decide) A.page.ge
  have hle : (2 : Nat) ^ A.bits ≤ 2 ^ 30 := Nat.pow_le_pow_right (by decide) A.page.le
  rw [Arena.perPage]
  omega

theorem roundUnits_lt (A : Arena) (t : Nat) : roundUnits A t < 2 ^ 32 := Nat.mod_lt _ (by decide)

/-- A request that leaves room for the rounding is not cut short. -/
theorem le_roundUnits (h : t + A.perPage ≤ 2 ^ 32) : t ≤ roundUnits A t := by
  have hper := A.perPage_spec
  have hdiv := Nat.div_add_mod (t + (A.perPage - 1)) A.perPage
  have hmod := Nat.mod_lt (t + (A.perPage - 1)) hper.1
  rw [Nat.mul_comm] at hdiv
  rw [roundUnits, Nat.mod_eq_of_lt (by omega)]
  omega

/-- The calls of `sys$morecore` that return `NULL` at once. -/
def Refused (A : Arena) (s : Memory) (t : Nat) (back : Bool) : Prop :=
  back = false ∨ A.top < s.bss + 16 * roundUnits A t

theorem sysMorecore_refused {back : Bool} (hbelow : s.bss ≤ A.top) (h : Refused A s t back) :
    sysMorecore A fuel back t s = .ok (0, s) := by
  have hhigh := A.high
  have hlt := roundUnits_lt A t
  have hadd : wordAdd s.bss (roundUnits A t * 16) = s.bss + 16 * roundUnits A t := by
    rw [wordAdd, Nat.mul_comm, Nat.mod_eq_of_lt (by omega)]
  rw [sysMorecore, hadd]
  by_cases htop : s.bss + 16 * roundUnits A t > A.top
  · rw [if_pos htop]
  · rw [if_neg htop, if_pos (h.resolve_right htop)]

theorem HInv.freep_pos (h : HInv A s fs live) : 0 < s.freep := by
  have hout := A.outside
  have hlow := A.low
  rcases List.mem_cons.mp h.freep with heq | hmem
  · omega
  · have hin := h.parts.2.2 _ hmem
    omega

/-- **More core.**  If it is not refused, there is a free block that is big enough afterwards. -/
theorem HInv.morecore (h : HInv A s fs live) {back : Bool} (ht : 0 < t) (hfuel : A.rounds ≤ fuel)
    (hround : t ≤ roundUnits A t) (hnot : ¬ Refused A s t back) :
    ∃ s' fs', sysMorecore A fuel back t s = .ok (s'.freep, s') ∧ HInv A s' fs' live ∧
      ∃ f ∈ fs', t ≤ s'.size f := by
  obtain ⟨hlo, -, hin⟩ := h.parts
  have hhigh := A.high
  have hbelow := h.below
  have hout := A.outside
  have hlt := roundUnits_lt A t
  rw [Refused, not_or, Bool.not_eq_false] at hnot
  obtain ⟨hback, htop⟩ := hnot
  generalize hnu : roundUnits A t = nu at *
  have hadd : wordAdd s.bss (nu * 16) = s.bss + 16 * nu := by
    rw [wordAdd, Nat.mul_comm, Nat.mod_eq_of_lt (by omega)]
  have hhdr : hdr s.bss 1 = s.bss + 16 := Nat.mod_eq_of_lt (by omega)
  -- the new block begins where the others end
  have hfs : s.bss ∉ fs := by
    intro hmem
    have hb := hin _ hmem
    omega
  have hlive : ∀ x ∈ live, x.1 ≠ s.bss := by
    intro x hx heq
    have hmem : blk s.size x.1 ∈ tilesOf s.size fs live := mem_tilesOf.mpr (.inr ⟨x, hx, rfl⟩)
    have hi := h.tiles.inside _ hmem
    have hp := h.tiles.pos _ hmem
    simp only [blk] at hi hp
    omega
  have hsize : ∀ v, v ≠ s.bss → Function.update s.size s.bss nu v = s.size v :=
    fun v hv => Function.update_of_ne hv _ _
  have htiles : Tiles A.lo (s.bss + 16 * nu)
      (tilesOf (Function.update s.size s.bss nu) fs ((s.bss, 0) :: live)) := by
    refine Tiles.perm ?_ tilesOf_cons
    simp only [blk, Function.update_self, tilesOf_update hfs hlive]
    exact h.tiles.extend (by omega)
  have hring : RingInv A { s with bss := s.bss + 16 * nu, size := Function.update s.size s.bss nu } fs := by
    refine ⟨h.ring, ?_, h.freep, ?_, Nat.not_lt.mp htop⟩
    · exact (hsize A.base (by omega)).trans h.zero
    · refine h.ascending.imp_of_mem fun {a b} ha _ hab => ?_
      have hne : a ≠ s.bss := fun heq => hfs (heq ▸ ha)
      show a + 16 * Function.update s.size s.bss nu a < b
      rwa [hsize a hne]
  have hroom : ∀ x ∈ live, x.2 + 16 ≤ 16 * Function.update s.size s.bss nu x.1 := by
    intro x hx
    rw [hsize x.1 (hlive x hx)]
    exact h.room x hx
  obtain ⟨s', fs', hfree, hinv, -, f, hf, hbig⟩ := sysFree_spec hring htiles hroom hfuel
  refine ⟨s', fs', ?_, hinv, f, hf, ?_⟩
  · simp only [sysMorecore, hnu, hadd, hhdr]
    rw [if_neg htop, if_neg (by simp [hback]), hfree]
  · have hnew : Function.update s.size s.bss nu s.bss = nu := Function.update_self _ _ _
    simp only [hnew] at hbig
    omega

/-! ### `sys$alloc` -/

theorem HInv.loop_found (h : HInv A s fs live) (back : Nat → Bool) (ht : 0 < t) (hfuel : A.rounds ≤ fuel)
    (hbig : ∃ f ∈ fs, t ≤ s.size f) (turns k : Nat) :
    ∃ q s', allocLoop A fuel back t (turns + 1) k s.freep s = .ok (q + 16, s') ∧ Given A s' live q t := by
  rcases h.scan ht hfuel with ⟨prev, cur, hscan, hprev, hnext, hcur, hsize⟩ | ⟨hsmall, -⟩
  · obtain ⟨q, s', htake, hgiven⟩ := h.takeBlock ht hprev hnext hcur hsize
    refine ⟨q, s', ?_, hgiven⟩
    rw [allocLoop, hscan]
    simp only [htake]
  · obtain ⟨f, hf, hle⟩ := hbig
    exact absurd hle (Nat.not_le.mpr (hsmall f hf))

theorem HInv.loop_refused (h : HInv A s fs live) {back : Nat → Bool} {k : Nat} (ht : 0 < t)
    (hfuel : A.rounds ≤ fuel) (hsmall : ∀ f ∈ fs, s.size f < t) (href : Refused A s t (back k))
    (turns : Nat) : allocLoop A fuel back t (turns + 1) k s.freep s = .ok (0, s) := by
  rcases h.scan ht hfuel with ⟨prev, cur, -, -, -, hcur, hsize⟩ | ⟨-, hscan⟩
  · exact absurd hsize (Nat.not_le.mpr (hsmall cur hcur))
  · rw [allocLoop, hscan]
    simp only [sysMorecore_refused h.below href]

/-- The search goes on with the new core, and ends in this turn. -/
theorem HInv.loop_grown (h : HInv A s fs live) {back : Nat → Bool} {k : Nat} (ht : 0 < t)
    (hfuel : A.rounds ≤ fuel) (hsmall : ∀ f ∈ fs, s.size f < t) (hround : t ≤ roundUnits A t)
    (hnot : ¬ Refused A s t (back k)) (turns : Nat) :
    ∃ q s', allocLoop A fuel back t (turns + 2) k s.freep s = .ok (q + 16, s') ∧ Given A s' live q t := by
  rcases h.scan ht hfuel with ⟨prev, cur, -, -, -, hcur, hsize⟩ | ⟨-, hscan⟩
  · exact absurd hsize (Nat.not_le.mpr (hsmall cur hcur))
  · obtain ⟨s', fs', hmore, hinv, hbig⟩ := h.morecore ht hfuel hround hnot
    obtain ⟨q, s'', hloop, hgiven⟩ := hinv.loop_found back ht hfuel hbig turns (k + 1)
    obtain ⟨p, hp⟩ : ∃ p, s'.freep = p + 1 := ⟨s'.freep - 1, by have := hinv.freep_pos; omega⟩
    refine ⟨q, s'', ?_, hgiven⟩
    rw [allocLoop, hscan]
    simp only [hmore]
    rw [hp] at hloop ⊢
    exact hloop

end

end FreeVMS.Heap
