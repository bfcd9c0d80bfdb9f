import FreeVMS.Exec.Loop

/-!
# Page faults

What `sys$pagefault` answers in a state with the invariant: the page of the address, if the sender is a
thread whose domain has a capability for the memsection.  The search for a capability may go round
without an end, as `Kernel/Capability.lean` says.
-/

namespace FreeVMS.Exec

open Alloc BTree Kernel Kernel.Access Thread LinkRing LinkChain

/-- The page that an address is on. -/
def pageOf (k : Machine) (addr : Nat) : Nat := addr / 2 ^ k.bits * 2 ^ k.bits

/-- The map item for a page fault: the page of the address, with the access that was tried. -/
structure PageItem (k : Machine) (addr tag : Nat) (item : MapItem) : Prop where
  address : l4Address item.sndFpage = pageOf k addr
  size : l4Size item.sndFpage = 2 ^ k.bits
  rights : l4Rights item.sndFpage = tag / 2 ^ 16 % 2 ^ 3
  base : item.sndBase = pageOf k addr

/-- `caller` is a thread of a domain, and the capability lists of the domain, in their order, are
    `clists`. -/
def ListsOf (s : System) (caller : Nat) (clists : List ClistInfo) : Prop :=
  ∃ d t cells, t ∈ (s.pd d).threads ∧ s.id t = caller ∧
    Hangs s.security.links (.clists d) cells ∧ clists = cells.map s.security.data

/-- The thread has a capability for the memsection that the object table has for the address.  It is
    the address of the `struct memsection` that a capability is for. -/
def Granted (s : System) (caller addr : Nat) (o : Memsection) : Prop :=
  objtableLookup s.security.objects addr = some (some o) ∧
    (∃ m, objtableLookup s.security.objects o.addr = some (some m)) ∧
    ∃ clists, ListsOf s caller clists ∧ Grants s.security.obj o.addr clists

/-- The search for a capability of the thread ends. -/
def SearchEnds (s : System) (caller : Nat) (o : Memsection) : Prop :=
  ∀ clists, ListsOf s caller clists → ¬ Circles s.security.obj o.addr clists

/-! ### The search -/

section

variable {next : Access.Cell → Access.Cell} {data : Access.Cell → ClistInfo} {obj : Nat → Nat → Nat}
  {ref cap fuel i : Nat} {first stop x : Access.Cell} {l : List Access.Cell} {temp : Nat → Nat}
  {e : Access.Fault}

theorem scanClist_error {length : Nat} (h : scanClist temp length ref fuel i = .error e) :
    e = .diverge := by
  induction fuel generalizing i with
  | zero => exact (Except.error.inj h).symm
  | succ fuel ih =>
    rw [scanClist] at h
    split at h
    · split at h
      · cases h
      · exact ih h
    · cases h

theorem validateLoop_error (h : validateLoop next data obj ref first fuel x = .error e) :
    e = .diverge := by
  induction fuel generalizing x with
  | zero => exact (Except.error.inj h).symm
  | succ fuel ih =>
    rw [validateLoop] at h
    split at h
    · cases h
    · split at h
      · cases h
      · split at h
        · rename_i hscan
          obtain rfl := Except.error.inj h
          exact scanClist_error hscan
        · cases h
        · exact ih h

/-- A capability that is found grants access. -/
theorem validateLoop_grants (h : Chain next stop x l) (hstop : next stop = first)
    (hcells : ∀ y ∈ l, next y ≠ first)
    (hrun : validateLoop next data obj ref first fuel x = .ok cap)
    (hvalid : isValidCap cap = true) : Grants obj ref (l.map data) := by
  induction l generalizing x fuel with
  | nil =>
    obtain rfl : x = stop := h
    cases fuel with
    | zero => cases hrun
    | succ fuel =>
      rw [validateLoop_end hstop] at hrun
      obtain rfl := Except.ok.inj hrun
      exact absurd hvalid invalidCap_not_valid
  | cons y l ih =>
    obtain ⟨rfl, -, hrest⟩ := h
    cases fuel with
    | zero => cases hrun
    | succ fuel =>
      rw [validateLoop, if_neg (hcells x List.mem_cons_self)] at hrun
      by_cases hnull : (data x).clist = 0
      · rw [if_pos hnull] at hrun
        obtain rfl := Except.ok.inj hrun
        exact absurd hvalid invalidCap_not_valid
      rw [if_neg hnull] at hrun
      rw [List.map_cons, grants_cons hnull]
      have hmore : ∀ z ∈ l, next z ≠ first := fun z hz => hcells z (List.mem_cons_of_mem _ hz)
      cases scanned obj ref (data x) with
      | circles hend =>
        rw [scanClist_endless hend (by decide)] at hrun
        cases hrun
      | hit i hhit _ _ => exact .inl ⟨i, hhit⟩
      | miss _ _ hscan =>
        rcases @scanClist_more obj ref (data x) fuel 0 with hout | hsame
        · rw [hout] at hrun
          cases hrun
        · rw [← hsame (2 ^ 32), hscan _ (Nat.le_add_left _ _)] at hrun
          exact .inr (ih hrest hmore hrun)

end

/-! ### The answer -/

section

variable {k : Machine} {lo idBits d fuel caller addr tag : Nat} {s : System}
  {live : List (Nat × Nat)} {v : Nat → List Access.Cell} {o : Memsection} {item : MapItem}

/-- The lists of a thread are those of its owner. -/
theorem Well.listsOf_iff (h : Well k lo idBits s live) (hrings : Rings s.security v)
    {clists : List ClistInfo} : ListsOf s caller clists ↔
      ∃ t, threadLookup s.security caller = .ok t ∧ t ≠ 0 ∧
        clists = (v (s.security.owner t)).map s.security.data := by
  constructor
  · rintro ⟨d, t, cells, ht, rfl, hhangs, rfl⟩
    obtain ⟨howner, hlive⟩ := (h.listed d t).mp ht
    have hne : t ≠ 0 := h.filed.ne_zero hlive
    refine ⟨t, (h.filed.lookup_iff hne).mpr hlive, hne, ?_⟩
    rw [howner, hhangs.unique (hrings.hangs d)]
  · rintro ⟨t, hlookup, hne, rfl⟩
    have hlive := (h.filed.lookup_iff hne).mp hlookup
    exact ⟨s.security.owner t, t, v (s.security.owner t), h.live_listed hlive, h.ids _ hlive,
      hrings.hangs _, rfl⟩

/-- The map item is that of the page. -/
theorem pageItem_mk (hb : PageBits k.bits) : PageItem k addr tag (pageMapItem k addr tag) := by
  have hge := hb.ge
  have hle := hb.le
  have hdown : Boot.pageRoundDown addr (2 ^ k.bits) = pageOf k addr := rfl
  have haligned : pageOf k addr % 2 ^ k.bits = 0 := Nat.mul_mod_left _ _
  have hfpage : l4Fpage (pageOf k addr) (2 ^ k.bits) = l4FpageLog2 (pageOf k addr) k.bits := by
    rw [l4Fpage, Nat.log2_two_pow, if_neg (Nat.lt_irrefl _)]
  have hraw : (l4FpageLog2 (pageOf k addr) k.bits).raw = pageOf k addr + k.bits * 2 ^ 4 :=
    l4FpageLog2_raw hge (by omega) haligned
  obtain ⟨q, hq⟩ : 2 ^ 10 ∣ pageOf k addr :=
    (two_pow_dvd_of_le hge).trans (Nat.dvd_of_mod_eq_zero haligned)
  have hset : (l4SetRights (l4FpageLog2 (pageOf k addr) k.bits) (tag / 2 ^ 16 % 2 ^ 4)).raw =
      pageOf k addr + k.bits * 2 ^ 4 + tag / 2 ^ 16 % 2 ^ 3 := by
    rw [l4SetRights, hraw]
    simp only
    omega
  have hlog : l4SizeLog2 (l4SetRights (l4FpageLog2 (pageOf k addr) k.bits) (tag / 2 ^ 16 % 2 ^ 4)) =
      k.bits := by
    rw [l4SizeLog2, hset]
    omega
  have haddress : l4Address (l4SetRights (l4FpageLog2 (pageOf k addr) k.bits)
      (tag / 2 ^ 16 % 2 ^ 4)) = pageOf k addr := by
    rw [l4Address, hlog, hset]
    have hlt : k.bits * 2 ^ 4 + tag / 2 ^ 16 % 2 ^ 3 < 2 ^ k.bits := by
      have hpow : (2 : Nat) ^ 10 ≤ 2 ^ k.bits := Nat.pow_le_pow_right (by decide) hge
      omega
    have hmul := Nat.div_add_mod (pageOf k addr) (2 ^ k.bits)
    rw [haligned, Nat.add_zero] at hmul
    rw [Nat.add_assoc, ← hmul, Nat.mul_add_div (Nat.two_pow_pos _), Nat.div_eq_of_lt hlt, Nat.add_zero,
      Nat.mul_comm]
  rw [pageMapItem, hdown, hfpage]
  constructor
  case address => exact haddress
  case size => rw [l4Size, hlog, if_neg (by omega)]
  case rights =>
    rw [l4Rights, hset]
    omega
  case base => exact haddress

/-- **Page faults.**  An answer is the page; the thread has a capability for the memsection, and the
    search for it ends. -/
theorem pagefault_granted (hb : PageBits k.bits) (h : Well k lo idBits s live)
    (hrings : Rings s.security v) (hrun : pagefault k fuel caller addr tag s = .ok item) :
    PageItem k addr tag item ∧ ∃ o, Granted s caller addr o ∧ SearchEnds s caller o := by
  rw [pagefault] at hrun
  cases hlookup : objtableLookup s.security.objects addr with
  | none =>
    rw [hlookup] at hrun
    cases hrun
  | some m =>
    cases m with
    | none =>
      rw [hlookup] at hrun
      cases hrun
    | some o =>
      simp only [hlookup] at hrun
      cases hcheck : secCheck fuel s.security caller o.addr with
      | error e =>
        rw [hcheck] at hrun
        cases hrun
      | ok r =>
        simp only [hcheck] at hrun
        by_cases hr : r = 0
        · rw [if_pos hr] at hrun
          obtain rfl := Except.ok.inj hrun
          rw [hr] at hcheck
          refine ⟨pageItem_mk hb, o, ?_⟩
          obtain ⟨table, -, hholds⟩ := h.filed
          have hthread := threadLookup_spec hholds caller
          obtain ⟨hne, ⟨m, hm⟩, cap, hcap, hvalid⟩ := (secCheck_granted_iff hholds).mp hcheck
          refine ⟨⟨hlookup, ⟨m, hm⟩, _, (h.listsOf_iff hrings).mpr ⟨_, hthread, hne, rfl⟩, ?_⟩,
            fun clists hclists hcircles => ?_⟩
          · exact validateLoop_grants (hrings.chain _) rfl (hrings.next_ne _) hcap hvalid
          · obtain ⟨t, hlookup', -, rfl⟩ := (h.listsOf_iff hrings).mp hclists
            obtain rfl := Except.ok.inj (hthread.symm.trans hlookup')
            rw [secCheck_circles hholds hrings hne hm hcircles fuel] at hcheck
            cases hcheck
        · rw [if_neg hr] at hrun
          cases hrun

/-- Where both hold, the page is given from some fuel on. -/
theorem pagefault_served (tag : Nat) (h : Well k lo idBits s live) (hrings : Rings s.security v)
    (hgranted : Granted s caller addr o) (hends : SearchEnds s caller o) :
    ∃ n, ∀ fuel, n ≤ fuel → pagefault k fuel caller addr tag s = .ok (pageMapItem k addr tag) := by
  obtain ⟨hobject, ⟨m, hm⟩, clists, hclists, hgrants⟩ := hgranted
  obtain ⟨table, -, hholds⟩ := h.filed
  have hcircles := hends clists hclists
  obtain ⟨t, hlookup, hne, rfl⟩ := (h.listsOf_iff hrings).mp hclists
  obtain rfl := Except.ok.inj ((threadLookup_spec hholds caller).symm.trans hlookup)
  refine ⟨2 ^ 32 + (v (s.security.owner ((table.bindings caller).headD 0))).length + 1,
    fun fuel hfuel => ?_⟩
  obtain ⟨r, hr, hzero⟩ := secCheck_returns hholds hrings hne hm hcircles fuel hfuel
  rw [pagefault, hobject]
  simp only [hr, if_pos (hzero.mpr hgrants)]

/-- Otherwise the loop stops, or the search does not end. -/
theorem pagefault_error (h : Well k lo idBits s live) {e : Fault}
    (hrun : pagefault k fuel caller addr tag s = .error e) : e = .panic ∨ e = .access .diverge := by
  obtain ⟨w, htable⟩ := h.table
  obtain ⟨table, -, hholds⟩ := h.filed
  obtain ⟨m, hm, -⟩ := lookup_tells htable addr
  rw [pagefault, hm] at hrun
  cases m with
  | none => exact .inl (Except.error.inj hrun).symm
  | some o =>
    simp only at hrun
    cases hcheck : secCheck fuel s.security caller o.addr with
    | ok r =>
      simp only [hcheck] at hrun
      by_cases hr : r = 0
      · rw [if_pos hr] at hrun
        cases hrun
      · rw [if_neg hr] at hrun
        exact .inl (Except.error.inj hrun).symm
    | error f =>
      simp only [hcheck] at hrun
      obtain rfl := Except.error.inj hrun
      obtain ⟨m', hm', -⟩ := lookup_tells htable o.addr
      rw [secCheck_eq hholds, hm'] at hcheck
      split at hcheck
      · cases hcheck
      · cases m' with
        | none => cases hcheck
        | some m' =>
          simp only at hcheck
          split at hcheck
          · rename_i hvalidate
            obtain rfl := Except.error.inj hcheck
            exact .inr (by rw [validateLoop_error hvalidate])
          · cases hcheck

end

end FreeVMS.Exec
