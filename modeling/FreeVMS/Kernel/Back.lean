import FreeVMS.Kernel.Section

/-!
# Backing the heap

`sys$back_mem` creates one memsection for each page of a range and asks
`sys$memsection_page_map` to map its memory there.  The range lies in the heap, which is paged
by its user; `sys$back_mem` insists on that and `sys$memsection_page_map` refuses it.

The object table and the creation of memsections are any two functions on any state: nothing
here depends on what they do.
-/

namespace FreeVMS.Kernel.Back

open Alloc Sections

/-- The part of `struct memsection` that mappings are made from. -/
structure Backing where
  base : Nat
  end_ : Nat
  flags : Nat
  phys : List Fpage
deriving Repr

/-- `sys$objtable_lookup`, and `sys$pd_create_memsection` for `freevms_pd` with the given size and
    page size and the flags `VMS$MEM_NORMAL`. -/
structure Env (σ : Type) where
  lookup : σ → Nat → Option Backing
  create : Nat → σ → Except Fault (Option Backing × σ)

/-- A page that `sys$sigma0_map` is asked to map, and where to. -/
abbrev Mapping := Nat × Nat

section Code

variable {σ : Type} (env : Env σ) (bits : Nat)

/-- The loop of `sys$memsection_lookup_phys`; past the end of the list it reads through a null
    pointer. -/
def lookupPhys (addr : Nat) : Nat → List Fpage → Except Fault Nat
  | _, [] => .error .outOfBounds
  | virt, node :: list =>
      if addr ≥ virt ∧ addr < wordAdd virt (l4Size node) then
        .ok (wordAdd (l4Address node) (wordSub addr virt))
      else lookupPhys addr (wordAdd virt (l4Size node)) list

/-- `sys$memsection_lookup_phys`. -/
def memsectionLookupPhys (ms : Backing) (addr : Nat) : Except Fault Nat :=
  lookupPhys addr ms.base ms.phys

/-- The loop of `sys$memsection_page_map`, with `n` pages left. -/
def pageMapLoop (src : Backing) (fromBase toBase : Nat) : Nat → Nat → Except Fault (List Mapping)
  | 0, _ => .ok []
  | n + 1, offset =>
      match memsectionLookupPhys src (wordAdd fromBase offset) with
      | .error e => .error e
      | .ok phys =>
          match pageMapLoop src fromBase toBase n (offset + 2 ^ bits) with
          | .error e => .error e
          | .ok maps => .ok ((wordAdd toBase offset, phys) :: maps)

/-- `sys$memsection_page_map`: the return value and the mappings that were made. -/
def memsectionPageMap (s : σ) (self : Backing) (fromPage toPage : Fpage) :
    Except Fault (Int × List Mapping) :=
  if has self.flags memUser then .ok (-1, [])
  else if l4Size fromPage ≠ l4Size toPage then .ok (-1, [])
  else
    let fromBase := l4Address fromPage
    let toBase := l4Address toPage
    let toEnd := wordAdd toBase (wordSub (l4Size toPage) 1)
    match env.lookup s fromBase with
    | none => .ok (-1, [])
    | some src =>
        if has src.flags memUser then .ok (-1, [])
        else if has src.flags memInternal then .ok (-1, [])
        else if toBase < self.base ∨ toEnd > self.end_ then .ok (-1, [])
        else
          match pageMapLoop bits src fromBase toBase ((l4Size fromPage + (2 ^ bits - 1)) / 2 ^ bits) 0
          with
          | .error e => .error e
          | .ok maps => .ok (0, maps)

/-- The loop of `sys$back_mem`, for at most `fuel` rounds. -/
def backLoop (ms : Backing) (end_ pagesize : Nat) :
    Nat → Nat → σ → List Mapping → Except Fault (Int × List Mapping)
  | 0, _, _, _ => .error .diverge
  | fuel + 1, base, s, maps =>
      if base < end_ then
        match env.create pagesize s with
        | .error e => .error e
        | .ok (none, _) => .ok (-1, maps)
        | .ok (some backed, s') =>
            -- the return value is not looked at
            match memsectionPageMap env bits s' ms (l4Fpage backed.base pagesize)
                (l4Fpage base pagesize) with
            | .error e => .error e
            | .ok (_, new) =>
                backLoop ms end_ pagesize fuel (wordAdd base pagesize) s' (maps ++ new)
      else .ok (0, maps)

/-- `sys$back_mem`: the return value and the mappings that were made. -/
def backMem (fuel : Nat) (s : σ) (base end_ pagesize : Nat) : Except Fault (Int × List Mapping) :=
  match env.lookup s base with
  | none => .error .panic
  | some ms =>
      if has ms.flags memUser then backLoop env bits ms end_ pagesize fuel base s []
      else .error .panic

/-- **What backing is for**, for the `n + 1` pages from `base` on: however long the call takes,
    when it returns 0 every page is mapped, and no two to the same page of memory. -/
def BackCorrect (s : σ) (base n : Nat) : Prop :=
  ∀ fuel maps, backMem env bits fuel s base (base + (n + 1) * 2 ^ bits - 1) (2 ^ bits) = .ok (0, maps) →
    (∀ i ≤ n, ∃ phys, (base + i * 2 ^ bits, phys) ∈ maps) ∧
      ∀ i ≤ n, ∀ j ≤ n, i ≠ j → ∀ phys phys', (base + i * 2 ^ bits, phys) ∈ maps →
        (base + j * 2 ^ bits, phys') ∈ maps → phys ≠ phys'

/-- `k` memsections of `pagesize` bytes can be created one after the other. -/
def Grants (pagesize : Nat) : Nat → σ → Prop
  | 0, _ => True
  | k + 1, s => ∃ backed s', env.create pagesize s = .ok (some backed, s') ∧ Grants pagesize k s'

end Code

section

variable {σ : Type} {env : Env σ} {bits : Nat}

/-- **Refusal.**  Nothing is mapped into a memsection that is paged by its user. -/
theorem memsectionPageMap_user {s : σ} {self : Backing} (h : has self.flags memUser = true)
    (fromPage toPage : Fpage) : memsectionPageMap env bits s self fromPage toPage = .ok (-1, []) := by
  rw [memsectionPageMap, if_pos h]

/-- A round of the loop that creates its memsection goes on with nothing mapped. -/
theorem backLoop_grant {ms : Backing} {end_ pagesize fuel base : Nat} {s s' : σ} {maps : List Mapping}
    {backed : Backing} (h : has ms.flags memUser = true) (hlt : base < end_)
    (hc : env.create pagesize s = .ok (some backed, s')) :
    backLoop env bits ms end_ pagesize (fuel + 1) base s maps =
      backLoop env bits ms end_ pagesize fuel (wordAdd base pagesize) s' maps := by
  rw [backLoop, if_pos hlt, hc]
  simp only [memsectionPageMap_user h, List.append_nil]

/-- The rounds that pages are granted for, while the addresses do not wrap. -/
theorem backLoop_grants {ms : Backing} {end_ pagesize : Nat} {maps : List Mapping}
    (h : has ms.flags memUser = true) :
    ∀ (k fuel base : Nat) (s : σ), Grants env pagesize k s → (∀ i < k, base + i * pagesize < end_) →
      base + k * pagesize < wordSize →
      ∃ s', backLoop env bits ms end_ pagesize (fuel + k) base s maps =
        backLoop env bits ms end_ pagesize fuel (base + k * pagesize) s' maps := by
  intro k
  induction k with
  | zero =>
    intro fuel base s _ _ _
    exact ⟨s, by simp⟩
  | succ k ih =>
    intro fuel base s hg hin hfit
    obtain ⟨backed, s', hc, hg'⟩ := hg
    have hsucc : base + (k + 1) * pagesize = base + pagesize + k * pagesize := by
      rw [Nat.succ_mul]
      omega
    have hlt : base < end_ := by simpa using hin 0 (Nat.succ_pos k)
    have hnext : wordAdd base pagesize = base + pagesize :=
      Nat.mod_eq_of_lt (by omega)
    obtain ⟨s'', hs''⟩ := ih fuel (base + pagesize) s' hg'
      (fun i hi => by
        have := hin (i + 1) (by omega)
        rw [Nat.succ_mul] at this
        omega)
      (by omega)
    refine ⟨s'', ?_⟩
    rw [← Nat.add_assoc, backLoop_grant h hlt hc, hnext, hs'', hsucc]

/-- What the loop returns when it returns 0: nothing has been mapped, and `k` pages were granted
    if `base` has still `k` pages before it. -/
theorem backLoop_zero {ms : Backing} {end_ pagesize : Nat} (h : has ms.flags memUser = true) :
    ∀ (fuel base : Nat) (s : σ) (maps maps' : List Mapping) (k : Nat),
      (∀ i < k, base + i * pagesize < end_) → end_ < wordSize →
      backLoop env bits ms end_ pagesize fuel base s maps = .ok (0, maps') →
      maps' = maps ∧ Grants env pagesize k s := by
  intro fuel
  induction fuel with
  | zero =>
    intro base s maps maps' k _ _ hr
    exact nomatch hr
  | succ fuel ih =>
    intro base s maps maps' k hin hw hr
    by_cases hlt : base < end_
    · cases hc : env.create pagesize s with
      | error e =>
        rw [backLoop, if_pos hlt, hc] at hr
        exact nomatch hr
      | ok r =>
        obtain ⟨b, s'⟩ := r
        cases b with
        | none =>
          rw [backLoop, if_pos hlt, hc] at hr
          exact absurd (congrArg Prod.fst (Except.ok.inj hr)) (by simp)
        | some backed =>
          rw [backLoop_grant h hlt hc] at hr
          cases k with
          | zero =>
            have hnone : ∀ i < 0, wordAdd base pagesize + i * pagesize < end_ :=
              fun i hi => absurd hi (Nat.not_lt_zero i)
            exact ⟨(ih _ s' maps maps' 0 hnone hw hr).1, trivial⟩
          | succ k =>
            have hin' : ∀ i < k, wordAdd base pagesize + i * pagesize < end_ := by
              intro i hi
              have hi' := hin (i + 1) (by omega)
              have h1 := hin 1 (by omega)
              rw [Nat.succ_mul] at hi'
              rw [wordAdd, Nat.mod_eq_of_lt (by omega)]
              omega
            obtain ⟨hmaps, hg⟩ := ih _ s' maps maps' k hin' hw hr
            exact ⟨hmaps, backed, s', hc, hg⟩
    · rw [backLoop, if_neg hlt] at hr
      refine ⟨(congrArg Prod.snd (Except.ok.inj hr)).symm, ?_⟩
      cases k with
      | zero => trivial
      | succ k => exact absurd (by simpa using hin 0 (Nat.succ_pos k)) hlt

/-- Up to the end of the address space the loop does not come to an end by itself: the address
    of the next page is 0. -/
theorem backLoop_wraps {ms : Backing} (hb : PageBits bits) :
    ∀ (fuel base : Nat) (s : σ) (maps maps' : List Mapping), base % 2 ^ bits = 0 → base < wordSize →
      backLoop env bits ms (wordSize - 1) (2 ^ bits) fuel base s maps ≠ .ok (0, maps') := by
  have hdvd : 2 ^ bits ∣ wordSize := two_pow_dvd_of_le (Nat.le_trans hb.le (by decide))
  intro fuel
  induction fuel with
  | zero =>
    intro base s maps maps' _ _ hr
    cases hr
  | succ fuel ih =>
    intro base s maps maps' hal hlt hr
    have hpage := aligned_gap hal (Nat.mod_eq_zero_of_dvd hdvd) hlt
    have htwo := hb.two_le
    have hal' : wordAdd base (2 ^ bits) % 2 ^ bits = 0 := by
      rw [wordAdd, Nat.mod_mod_of_dvd _ hdvd, Nat.add_mod_right]
      exact hal
    rw [backLoop, if_pos (by omega)] at hr
    cases hc : env.create (2 ^ bits) s with
    | error e =>
      rw [hc] at hr
      cases hr
    | ok r =>
      obtain ⟨b, s'⟩ := r
      rw [hc] at hr
      cases b with
      | none => exact absurd (congrArg Prod.fst (Except.ok.inj hr)) (by simp)
      | some backed =>
        cases hm : memsectionPageMap env bits s' ms (l4Fpage backed.base (2 ^ bits))
            (l4Fpage base (2 ^ bits)) with
        | error e =>
          simp only [hm] at hr
          cases hr
        | ok new =>
          simp only [hm] at hr
          exact ih _ s' _ maps' hal' (Nat.mod_lt _ (by decide)) hr

/-- **Backing maps nothing.**  For a range of pages of the heap, `sys$back_mem` does what it is for
    exactly when it does not return 0: when one of the memsections can not be created, or when the
    range goes up to the end of the address space. -/
theorem backCorrect_iff (hb : PageBits bits) {s : σ} {ms : Backing} {base n : Nat}
    (hms : env.lookup s base = some ms) (hflags : ms.flags = memNormal ||| memUser)
    (hal : base % 2 ^ bits = 0) (hfit : base + (n + 1) * 2 ^ bits ≤ wordSize) :
    BackCorrect env bits s base n ↔
      ¬ Grants env (2 ^ bits) (n + 1) s ∨ base + (n + 1) * 2 ^ bits = wordSize := by
  have huser : has ms.flags memUser = true := by
    rw [hflags]
    decide
  have htwo := hb.two_le
  have hback : ∀ fuel, backMem env bits fuel s base (base + (n + 1) * 2 ^ bits - 1) (2 ^ bits) =
      backLoop env bits ms (base + (n + 1) * 2 ^ bits - 1) (2 ^ bits) fuel base s [] := by
    intro fuel
    simp only [backMem, hms, if_pos huser]
  have hin : ∀ i < n + 1, base + i * 2 ^ bits < base + (n + 1) * 2 ^ bits - 1 := by
    intro i hi
    have hle : (i + 1) * 2 ^ bits ≤ (n + 1) * 2 ^ bits := Nat.mul_le_mul_right _ hi
    rw [Nat.succ_mul] at hle
    omega
  constructor
  · intro hcorrect
    by_contra hcon
    rw [not_or, not_not] at hcon
    obtain ⟨hg, hne⟩ := hcon
    have hfit' : base + (n + 1) * 2 ^ bits < wordSize := Nat.lt_of_le_of_ne hfit hne
    -- all pages are granted, and the round after them ends the loop
    have hrun : ∃ s', backLoop env bits ms (base + (n + 1) * 2 ^ bits - 1) (2 ^ bits) (1 + (n + 1))
          base s [] =
        backLoop env bits ms (base + (n + 1) * 2 ^ bits - 1) (2 ^ bits) 1
          (base + (n + 1) * 2 ^ bits) s' [] :=
      backLoop_grants huser (n + 1) 1 base s hg hin hfit'
    obtain ⟨s', hs'⟩ := hrun
    have hend : backLoop env bits ms (base + (n + 1) * 2 ^ bits - 1) (2 ^ bits) 1
        (base + (n + 1) * 2 ^ bits) s' [] = .ok (0, []) := by
      rw [backLoop, if_neg (by omega)]
    obtain ⟨phys, hphys⟩ := (hcorrect _ [] (by rw [hback, hs', hend])).1 0 (Nat.zero_le n)
    exact absurd hphys List.not_mem_nil
  · intro hcond fuel maps hr
    rw [hback] at hr
    exfalso
    have hend : base + (n + 1) * 2 ^ bits - 1 < wordSize := by
      have : 0 < wordSize := by decide
      omega
    rcases hcond with hng | heq
    · exact hng (backLoop_zero huser fuel base s [] maps (n + 1) hin hend hr).2
    · rw [heq] at hr
      have hlt : base < wordSize := by
        have := hin 0 (Nat.succ_pos n)
        omega
      exact backLoop_wraps hb fuel base s [] maps hal hlt hr

end

/-- A kernel with the heap at page 16, and `s` pages of memory left, each a memsection of its own
    from page 256 on. -/
def smallEnv : Env Nat where
  lookup _ a :=
    if a < 0x10000 then none
    else if a < 0x20000 then some ⟨0x10000, 0x1ffff, memNormal ||| memUser, []⟩
    else if a < 0x100000 then none
    else some ⟨a / 0x1000 * 0x1000, a / 0x1000 * 0x1000 + 0xfff, memNormal,
      [l4Fpage (a / 0x1000 * 0x1000) 0x1000]⟩
  create _ s :=
    .ok (match s with
      | 0 => (none, 0)
      | k + 1 => (some ⟨0x100000 + k * 0x1000, 0x100fff + k * 0x1000, memNormal,
          [l4Fpage (0x100000 + k * 0x1000) 0x1000]⟩, k))

/-- With one page left the second of two pages is not granted. -/
theorem smallEnv_backCorrect : BackCorrect smallEnv 12 1 0x10000 1 :=
  (backCorrect_iff ⟨by decide, by decide⟩ rfl rfl (by decide) (by decide)).mpr
    (.inl fun ⟨_, _, h, _, _, h', _⟩ => by
      obtain ⟨-, rfl⟩ := Prod.mk.inj (Except.ok.inj h)
      exact nomatch (Prod.mk.inj (Except.ok.inj h')).1)

/-- With two pages left both are granted, the call returns 0, and nothing is mapped. -/
theorem smallEnv_not_backCorrect : ¬ BackCorrect smallEnv 12 2 0x10000 1 := by
  intro h
  obtain ⟨phys, hphys⟩ := (h 3 [] (by decide +kernel)).1 0 (Nat.zero_le 1)
  exact absurd hphys List.not_mem_nil

end FreeVMS.Kernel.Back
