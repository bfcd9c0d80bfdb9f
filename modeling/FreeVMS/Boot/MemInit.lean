import FreeVMS.Boot.MemMap

/-!
# The memory at boot

`sys$mem_init` finds the memory of the machine and the objects that the boot loader has put there,
and takes the objects out of the free physical memory; `sys$bootstrap` takes them out of the free
virtual memory.  The names and entry points of the objects play no part in this and are left out.
-/

namespace FreeVMS.Boot

open Alloc Run

/-- `struct initial_obj`. -/
structure InitialObj where
  base : Nat
  end_ : Nat
  flags : Nat
deriving DecidableEq, Repr

/-- `VMS$IOF_RESERVED` and the other flags. -/
def iofReserved : Nat := 0x01
def iofApp : Nat := 0x02
def iofRoot : Nat := 0x04
def iofBoot : Nat := 0x08
def iofVirt : Nat := 0x10
def iofPhys : Nat := 0x20

/-- `L4_BootRec_t`, by its type. -/
inductive BootRec where
  | module (start size : UInt64)
  | simpleExec (flags textVstart textSize dataVstart dataSize : UInt64)
  | multiboot (address : UInt64)
  | other (type : UInt64)
deriving DecidableEq

/-- What `L4_BootInfo` points to, when it is valid. -/
structure BootInfo where
  address : UInt64
  size : UInt64
  records : List BootRec

/-- What is read of the kernel interface page. -/
structure KernelInterfacePage where
  memoryInfo : List MemoryDesc
  sigma0Low : UInt64
  sigma0High : UInt64
  bootInfo : Option BootInfo

/-- `DIT_INITIAL`, which marks the root task. -/
def ditInitial : Nat := 32

/-- The objects of one boot record. -/
def recordObjects : BootRec → Except Fault (List InitialObj)
  | .module start size =>
      .ok [⟨start.toNat, wordSub (wordAdd start.toNat size.toNat) 1, iofApp ||| iofPhys⟩]
  | .simpleExec flags tstart tsize dstart dsize =>
      let kind := if flags.toNat &&& ditInitial ≠ 0 then iofRoot ||| iofVirt else iofApp
      let text : InitialObj :=
        ⟨tstart.toNat, wordSub (wordAdd tstart.toNat tsize.toNat) 1, kind ||| iofPhys⟩
      let data : InitialObj :=
        ⟨dstart.toNat, wordSub (wordAdd dstart.toNat dsize.toNat) 1, iofRoot ||| iofVirt ||| iofPhys⟩
      if ¬ (dstart.toNat < wordAdd tstart.toNat tsize.toNat ∧ dstart.toNat ≥ tstart.toNat) ∧
          dsize.toNat ≠ 0 then .ok [text, data]
      else .ok [text]
  | .multiboot address =>
      .ok [⟨address.toNat, wordAdd address.toNat 0xfff, iofPhys ||| iofBoot ||| iofVirt⟩]
  | .other _ => .error .panic

/-- The loop of `sys$bootinfo_find_initial_objects`; the flag says that it has left by `overflow`.
    Objects beyond the array are a fault. -/
def recordsLoop (max : Nat) : List BootRec → Nat → Except Fault (List InitialObj × Bool)
  | [], _ => .ok ([], false)
  | record :: rest, count => do
      let objs ← recordObjects record
      if count + objs.length > max then .error .outOfBounds
      else if count + objs.length = max then .ok (objs, true)
      else
        let (more, overflow) ← recordsLoop max rest (count + objs.length)
        .ok (objs ++ more, overflow)

/-- `sys$bootinfo_find_initial_objects`. -/
def bootinfoFindInitialObjects (max : Nat) : Option BootInfo → Except Fault (List InitialObj)
  | none => .ok []
  | some bootinfo => do
      let (objs, overflow) ← recordsLoop max bootinfo.records 0
      if overflow then .ok objs
      else
        .ok (objs ++ [⟨bootinfo.address.toNat,
          wordAdd bootinfo.address.toNat (wordSub bootinfo.size.toNat 1),
          iofBoot ||| iofPhys ||| iofVirt⟩])

/-- The loop of `sys$find_initial_objects` over the memory descriptors. -/
def reservedLoop (max : Nat) : List MemoryDesc → Nat → Except Fault (List InitialObj × Bool)
  | [], _ => .ok ([], false)
  | m :: rest, count => do
      let info ← findMemoryInfo m
      if info.physical ∧ info.type = l4ReservedMemoryType then
        let obj : InitialObj := ⟨info.low, info.high, iofReserved ||| iofPhys⟩
        if count + 1 = max then .ok ([obj], true)
        else
          let (more, overflow) ← reservedLoop max rest (count + 1)
          .ok (obj :: more, overflow)
      else reservedLoop max rest count

/-- `sys$find_initial_objects`. -/
def findInitialObjects (max : Nat) (kip : KernelInterfacePage) : Except Fault (List InitialObj) := do
  let (reserved, overflow) ← reservedLoop max kip.memoryInfo 0
  if overflow then .ok reserved
  else
    let objs := reserved ++ [⟨kip.sigma0Low.toNat, kip.sigma0High.toNat, iofReserved ||| iofPhys⟩]
    if objs.length = max then .ok objs
    else
      let boot ← bootinfoFindInitialObjects (max - objs.length) kip.bootInfo
      .ok (objs ++ boot)

/-- `sys$set_flags`. -/
def setFlags (objs : List InitialObj) (match_ set : Nat) : List InitialObj :=
  objs.map fun o => if o.flags &&& match_ ≠ 0 then { o with flags := o.flags ||| set } else o

/-- `struct vms$meminfo`. -/
structure MemInfo where
  regions : List Region
  ioRegions : List Region
  vmRegions : List Region
  objects : List InitialObj
  swapperBase : Nat
deriving DecidableEq

def numMiRegions : Nat := 1024
def numMiIoregions : Nat := 1024
def numMiVmregions : Nat := 1024
def numMiObjects : Nat := 1024

/-- Take the pages of a range out of the regions. -/
def removePages (max pagesize base end_ : Nat) (rs : List Region) : Except Fault (List Region) :=
  removeChunk max (pageRoundDown base pagesize) (wordSub (pageRoundUp end_ pagesize) 1) rs

/-- `sys$remove_virtmem`, on the regions of the virtual memory. -/
def removeVirtmem (base end_ pageSize : Nat) (rs : List Region) : Except Fault (List Region) :=
  removePages numMiVmregions pageSize base end_ rs

/-- A round of a loop that takes the objects with a flag out of the regions. -/
def removeObject (flag : Nat) (remove : Nat → Nat → List Region → Except Fault (List Region))
    (o : InitialObj) (rs : List Region) : Except Fault (List Region) :=
  if o.flags &&& flag ≠ 0 then remove o.base o.end_ rs else .ok rs

/-- The loop of `sys$mem_init` over the objects. -/
def removePhysical (pagesize : Nat) (objs : List InitialObj) (rs : List Region) :
    Except Fault (List Region) :=
  runs (removeObject iofPhys (removePages numMiRegions pagesize)) objs rs

/-- The loop of `sys$bootstrap` over the objects. -/
def removeVirtual (pagesize : Nat) (objs : List InitialObj) (rs : List Region) :
    Except Fault (List Region) :=
  runs (removeObject iofVirt fun base end_ => removeVirtmem base end_ pagesize) objs rs

/-- `sys$mem_init`. -/
def memInit (kip : KernelInterfacePage) (pagesize : Nat) : Except Fault MemInfo := do
  let regions ← findMemoryRegion numMiRegions memRam memIo kip.memoryInfo
  let ioRegions ← findMemoryRegion numMiIoregions memIo memRam kip.memoryInfo
  let vmRegions ← findMemoryRegion numMiVmregions memVm 0 kip.memoryInfo
  -- a guard page
  let vmRegions ← removeChunk numMiVmregions 0 (pagesize - 1) vmRegions
  let objects ← findInitialObjects numMiObjects kip
  let regions ← removePhysical pagesize objects regions
  return {
    regions, ioRegions, vmRegions
    objects := setFlags objects iofApp iofVirt
    swapperBase := regions.foldl (fun base r => if base < r.end_ then wordAdd r.end_ 1 else base) 0 }

/-! ### The pages of an object -/

/-- The ranges of the objects with a flag. -/
def preloaded (flag : Nat) (objs : List InitialObj) : List Region :=
  (objs.filter fun o => o.flags &&& flag ≠ 0).map fun o => ⟨o.base, o.end_⟩

/-- The address is in the range that is removed for an object. -/
def Region.Removes (pagesize : Nat) (o : Region) (x : Nat) : Prop :=
  pageRoundDown o.base pagesize ≤ x ∧ x ≤ wordSub (pageRoundUp o.end_ pagesize) 1

/-- No byte of an object is free. -/
def Clear (os rs : List Region) : Prop := ∀ x, Covered x os → ¬ Covered x rs

/-- The last byte of an object that is alone on its page, unless it was not free anyway, is removed for
    another object. -/
def EndsRemoved (pagesize : Nat) (os rs : List Region) : Prop :=
  ∀ o ∈ os, o.base ≤ o.end_ → o.end_ % pagesize = 0 → o.end_ ≠ 0 → Covered o.end_ rs →
    ∃ o' ∈ os, o'.Removes pagesize o.end_

instance (x : Nat) (rs : List Region) : Decidable (Covered x rs) :=
  inferInstanceAs (Decidable (∃ r ∈ rs, r.base ≤ x ∧ x ≤ r.end_))

instance (pagesize : Nat) (o : Region) (x : Nat) : Decidable (o.Removes pagesize x) :=
  inferInstanceAs (Decidable (_ ∧ _))

instance (pagesize : Nat) (os rs : List Region) : Decidable (EndsRemoved pagesize os rs) :=
  inferInstanceAs (Decidable (∀ o ∈ os, _))

section

variable {b max end_ flag : Nat} {o : Region} {rs rs' : List Region} {objs : List InitialObj}

theorem pageRoundDown_mod (address pageSize : Nat) : pageRoundDown address pageSize % pageSize = 0 :=
  Nat.mul_mod_left _ _

theorem pageRoundDown_le (address pageSize : Nat) : pageRoundDown address pageSize ≤ address :=
  Nat.div_mul_le_self _ _

theorem two_pow_dvd_wordSize (hb : b < 64) : 2 ^ b ∣ wordSize := Nat.pow_dvd_pow 2 hb.le

/-- The upper bound of the pages. -/
theorem pages_high (hb : b < 64) (hend : end_ < wordSize) :
    (wordSub (pageRoundUp end_ (2 ^ b)) 1 + 1) % 2 ^ b = 0 ∧
      (end_ ≤ wordSub (pageRoundUp end_ (2 ^ b)) 1 ∨
        (end_ % 2 ^ b = 0 ∧ end_ ≠ 0 ∧ wordSub (pageRoundUp end_ (2 ^ b)) 1 + 1 = end_)) := by
  have hp : 0 < 2 ^ b := Nat.two_pow_pos b
  have hword : 2 ^ b ≤ wordSize := Nat.le_of_dvd (by decide) (two_pow_dvd_wordSize hb)
  have hmod : pageRoundUp end_ (2 ^ b) % 2 ^ b = 0 := Nat.mul_mod_left _ _
  have hzero : wordSub 0 1 = wordSize - 1 := by decide
  by_cases hwrap : end_ + (2 ^ b - 1) < wordSize
  · have hup : pageRoundUp end_ (2 ^ b) = (end_ + (2 ^ b - 1)) / 2 ^ b * 2 ^ b := by
      rw [pageRoundUp, wordAdd, Nat.mod_eq_of_lt hwrap]
    have hdiv := Nat.div_add_mod (end_ + (2 ^ b - 1)) (2 ^ b)
    have hlt := Nat.mod_lt (end_ + (2 ^ b - 1)) hp
    rw [Nat.mul_comm] at hdiv
    rw [← hup] at hdiv
    by_cases h0 : pageRoundUp end_ (2 ^ b) = 0
    · rw [h0, hzero]
      exact ⟨Nat.mod_eq_zero_of_dvd (two_pow_dvd_wordSize hb), .inl (by omega)⟩
    · rw [wordSub_one (by omega) (by omega), Nat.sub_add_cancel (by omega)]
      refine ⟨hmod, ?_⟩
      by_cases hle : end_ ≤ pageRoundUp end_ (2 ^ b) - 1
      · exact .inl hle
      · have heq : pageRoundUp end_ (2 ^ b) = end_ := by omega
        exact .inr ⟨by rwa [heq] at hmod, by omega, heq⟩
  · -- the sum wraps into the first page
    have hup : pageRoundUp end_ (2 ^ b) = 0 := by
      rw [pageRoundUp, wordAdd, Nat.mod_eq_sub_mod (by omega), Nat.mod_eq_of_lt (by omega),
        Nat.div_eq_of_lt (by omega), Nat.zero_mul]
    rw [hup, hzero]
    exact ⟨Nat.mod_eq_zero_of_dvd (two_pow_dvd_wordSize hb), .inl (by omega)⟩

theorem Region.Grained.of_dvd {g g' : Nat} {r : Region} (h : r.Grained g) (hd : g' ∣ g) : r.Grained g' :=
  ⟨Nat.mod_eq_zero_of_dvd (hd.trans (Nat.dvd_of_mod_eq_zero h.base)),
    Nat.mod_eq_zero_of_dvd (hd.trans (Nat.dvd_of_mod_eq_zero h.end_)), h.word⟩

/-- The smaller of a page and the unit of the descriptors. -/
def grain (b : Nat) : Nat := 2 ^ min b 10

theorem mod_grain {x : Nat} (h : x % 2 ^ b = 0) : x % grain b = 0 :=
  Nat.mod_eq_zero_of_dvd ((Nat.pow_dvd_pow 2 (min_le_left _ _)).trans (Nat.dvd_of_mod_eq_zero h))

theorem one_lt_grain (hb : 0 < b) : 1 < grain b :=
  Nat.one_lt_two_pow (by omega)

/-- **The pages of an object** are taken out of the regions, and nothing else. -/
theorem removePages_spec (hb : 0 < b) (hb' : b < 64) (hrs : ∀ r ∈ rs, r.Grained (grain b)) (ho : o.Word)
    (h : removePages max (2 ^ b) o.base o.end_ rs = .ok rs') : (∀ r ∈ rs', r.Grained (grain b)) ∧
      ∀ x, Covered x rs' ↔ Covered x rs ∧ ¬ o.Removes (2 ^ b) x := by
  have hdown := pageRoundDown_mod o.base (2 ^ b)
  have hup := (pages_high hb' ho.2).1
  have hlt : pageRoundDown o.base (2 ^ b) < wordSize := (pageRoundDown_le _ _).trans_lt ho.1
  exact (removeChunk_spec (one_lt_grain hb) hrs (mod_grain hdown) (mod_grain hup) hlt h).2

theorem preloaded_cons (o : InitialObj) : preloaded flag (o :: objs) =
    if o.flags &&& flag ≠ 0 then ⟨o.base, o.end_⟩ :: preloaded flag objs else preloaded flag objs := by
  rw [preloaded, List.filter_cons]
  split <;> simp_all [preloaded]

/-- The loops over the objects. -/
theorem removeObjects_spec (hb : 0 < b) (hb' : b < 64) (hobjs : ∀ o ∈ preloaded flag objs, o.Word)
    (hrs : ∀ r ∈ rs, r.Grained (grain b))
    (h : runs (removeObject flag (removePages max (2 ^ b))) objs rs = .ok rs') (x : Nat) :
    Covered x rs' ↔ Covered x rs ∧ ∀ o ∈ preloaded flag objs, ¬ o.Removes (2 ^ b) x := by
  induction objs generalizing rs with
  | nil =>
    obtain rfl := Except.ok.inj h
    simp [preloaded]
  | cons o objs ih =>
    rw [preloaded_cons] at hobjs ⊢
    rw [runs, removeObject] at h
    by_cases hflag : o.flags &&& flag ≠ 0
    · rw [if_pos hflag] at hobjs h ⊢
      cases hs : removePages max (2 ^ b) o.base o.end_ rs with
      | error e =>
        rw [hs] at h
        cases h
      | ok rs₁ =>
        rw [hs] at h
        obtain ⟨hgrained, hcovered⟩ :=
          removePages_spec (o := ⟨o.base, o.end_⟩) hb hb' hrs (hobjs _ List.mem_cons_self) hs
        rw [ih (fun o ho => hobjs o (List.mem_cons_of_mem _ ho)) hgrained h, hcovered,
          List.forall_mem_cons, and_assoc]
    · rw [if_neg hflag] at hobjs h ⊢
      exact ih hobjs hrs h

/-- **Objects are not free.**  After a loop over the objects no byte of them is free, if and only if no
    last byte of an object that is alone on its page has been left. -/
theorem clear_iff (hb : 0 < b) (hb' : b < 64) (hobjs : ∀ o ∈ preloaded flag objs, o.Word)
    (hrs : ∀ r ∈ rs, r.Grained (grain b))
    (h : runs (removeObject flag (removePages max (2 ^ b))) objs rs = .ok rs') :
    Clear (preloaded flag objs) rs' ↔ EndsRemoved (2 ^ b) (preloaded flag objs) rs := by
  have hcovered := removeObjects_spec hb hb' hobjs hrs h
  constructor
  · intro hclear o ho hle _ _ hfree
    by_contra hnone
    refine hclear o.end_ ⟨o, ho, hle, le_refl _⟩ ((hcovered _).mpr ⟨hfree, fun o' ho' hr => ?_⟩)
    exact hnone ⟨o', ho', hr⟩
  · rintro hends x ⟨o, ho, hbase, hend⟩ hfree
    obtain ⟨hfree, hleft⟩ := (hcovered x).mp hfree
    have hbeyond : ¬ x ≤ wordSub (pageRoundUp o.end_ (2 ^ b)) 1 := fun hle =>
      hleft o ho ⟨(pageRoundDown_le _ _).trans hbase, hle⟩
    rcases (pages_high hb' (hobjs o ho).2).2 with hle | ⟨halign, hpos, heq⟩
    · exact hbeyond (hend.trans hle)
    · obtain rfl : x = o.end_ := by omega
      obtain ⟨o', ho', hr⟩ := hends o ho hbase halign hpos hfree
      exact hleft o' ho' hr

/-! ### The objects of a kernel interface page -/

/-- The bounds of an object are words. -/
def InitialObj.Word (o : InitialObj) : Prop := o.base < wordSize ∧ o.end_ < wordSize

theorem wordSub_lt (x y : Nat) : wordSub x y < wordSize := Nat.mod_lt _ (by decide)

theorem wordAdd_lt (x y : Nat) : wordAdd x y < wordSize := Nat.mod_lt _ (by decide)

theorem toNat_lt_wordSize (x : UInt64) : x.toNat < wordSize := x.toNat_lt

theorem bind_ok {α β ε : Type} {x : Except ε α} {f : α → Except ε β} {y : β} (h : x >>= f = .ok y) :
    ∃ a, x = .ok a ∧ f a = .ok y := by
  cases x with
  | error e => exact nomatch h
  | ok a => exact ⟨a, rfl, h⟩

theorem recordObjects_word {record : BootRec} (h : recordObjects record = .ok objs) :
    ∀ o ∈ objs, o.Word := by
  have word : ∀ (x : UInt64) (y flags : Nat), y < wordSize → (⟨x.toNat, y, flags⟩ : InitialObj).Word :=
    fun x y _ hy => ⟨toNat_lt_wordSize x, hy⟩
  cases record with
  | module start size =>
    obtain rfl := Except.ok.inj h
    simpa using word _ _ _ (wordSub_lt _ _)
  | simpleExec flags tstart tsize dstart dsize =>
    simp only [recordObjects] at h
    split at h
    · obtain rfl := Except.ok.inj h
      simpa using ⟨word _ _ _ (wordSub_lt _ _), word _ _ _ (wordSub_lt _ _)⟩
    · obtain rfl := Except.ok.inj h
      simpa using word _ _ _ (wordSub_lt _ _)
  | multiboot address =>
    obtain rfl := Except.ok.inj h
    simpa using word _ _ _ (wordAdd_lt _ _)
  | other type => exact nomatch h

theorem recordsLoop_word {records : List BootRec} {count : Nat} {overflow : Bool}
    (h : recordsLoop max records count = .ok (objs, overflow)) : ∀ o ∈ objs, o.Word := by
  induction records generalizing count objs overflow with
  | nil =>
    obtain ⟨rfl, -⟩ := Prod.mk.inj (Except.ok.inj h)
    simp
  | cons record rest ih =>
    obtain ⟨first, hfirst, h⟩ := bind_ok h
    have hword := recordObjects_word hfirst
    split at h
    · exact nomatch h
    split at h
    · obtain ⟨rfl, -⟩ := Prod.mk.inj (Except.ok.inj h)
      exact hword
    · obtain ⟨⟨more, overflow'⟩, hmore, h⟩ := bind_ok h
      obtain ⟨rfl, -⟩ := Prod.mk.inj (Except.ok.inj h)
      exact List.forall_mem_append.mpr ⟨hword, ih hmore⟩

theorem bootinfoFindInitialObjects_word {bootInfo : Option BootInfo}
    (h : bootinfoFindInitialObjects max bootInfo = .ok objs) : ∀ o ∈ objs, o.Word := by
  cases bootInfo with
  | none =>
    obtain rfl := Except.ok.inj h
    simp
  | some bootinfo =>
    obtain ⟨⟨found, overflow⟩, hfound, h⟩ := bind_ok h
    have hword := recordsLoop_word hfound
    cases overflow with
    | true =>
      obtain rfl := Except.ok.inj h
      exact hword
    | false =>
      obtain rfl := Except.ok.inj h
      refine List.forall_mem_append.mpr ⟨hword, List.forall_mem_singleton.mpr ?_⟩
      exact ⟨toNat_lt_wordSize _, wordAdd_lt _ _⟩

theorem reservedLoop_word {ms : List MemoryDesc} {count : Nat} {overflow : Bool}
    (h : reservedLoop max ms count = .ok (objs, overflow)) : ∀ o ∈ objs, o.Word := by
  induction ms generalizing count objs overflow with
  | nil =>
    obtain ⟨rfl, -⟩ := Prod.mk.inj (Except.ok.inj h)
    simp
  | cons m rest ih =>
    obtain ⟨info, hinfo, h⟩ := bind_ok h
    have hword : InitialObj.Word ⟨info.low, info.high, iofReserved ||| iofPhys⟩ := by
      obtain ⟨hlow, hhigh, -⟩ := findMemoryInfo_eq hinfo
      have hgrain := m.grain.2.2
      rwa [← hlow, ← hhigh] at hgrain
    split at h
    · simp only at h
      split at h
      · obtain ⟨rfl, -⟩ := Prod.mk.inj (Except.ok.inj h)
        exact List.forall_mem_singleton.mpr hword
      · obtain ⟨⟨more, overflow'⟩, hmore, h⟩ := bind_ok h
        obtain ⟨rfl, -⟩ := Prod.mk.inj (Except.ok.inj h)
        exact List.forall_mem_cons.mpr ⟨hword, ih hmore⟩
    · exact ih h

/-- The bounds of every object that is found are words. -/
theorem findInitialObjects_word {kip : KernelInterfacePage} (h : findInitialObjects max kip = .ok objs) :
    ∀ o ∈ objs, o.Word := by
  obtain ⟨⟨reserved, overflow⟩, hreserved, h⟩ := bind_ok h
  have hword := reservedLoop_word hreserved
  cases overflow with
  | true =>
    obtain rfl := Except.ok.inj h
    exact hword
  | false =>
    have hsigma0 : ∀ o ∈ reserved ++
        [⟨kip.sigma0Low.toNat, kip.sigma0High.toNat, iofReserved ||| iofPhys⟩], o.Word :=
      List.forall_mem_append.mpr
        ⟨hword, List.forall_mem_singleton.mpr ⟨toNat_lt_wordSize _, toNat_lt_wordSize _⟩⟩
    simp only [Bool.false_eq_true, if_false] at h
    split at h
    · obtain rfl := Except.ok.inj h
      exact hsigma0
    · obtain ⟨boot, hboot, h⟩ := bind_ok h
      obtain rfl := Except.ok.inj h
      exact List.forall_mem_append.mpr ⟨hsigma0, bootinfoFindInitialObjects_word hboot⟩

theorem setFlags_word {match_ set : Nat} (h : ∀ o ∈ objs, o.Word) :
    ∀ o ∈ setFlags objs match_ set, o.Word := by
  simp only [setFlags, List.forall_mem_map]
  intro o ho
  split
  · exact h o ho
  · exact h o ho

theorem preloaded_word (h : ∀ o ∈ objs, o.Word) : ∀ o ∈ preloaded flag objs, o.Word := by
  simp only [preloaded, List.forall_mem_map]
  exact fun o ho => h o (List.mem_of_mem_filter ho)

/-- Another flag leaves the objects with `VMS$IOF_PHYS` as they are. -/
theorem preloaded_phys_setFlags :
    preloaded iofPhys (setFlags objs iofApp iofVirt) = preloaded iofPhys objs := by
  induction objs with
  | nil => rfl
  | cons o objs ih =>
    have hflag : (o.flags ||| iofVirt) &&& iofPhys = o.flags &&& iofPhys := by
      rw [Nat.and_or_distrib_right]
      exact Nat.or_zero _
    rw [setFlags, List.map_cons, preloaded_cons, preloaded_cons, ← setFlags, ih]
    split <;> simp [hflag]

theorem findMemoryRegion_grained {memoryType exceptType : Nat} {ms : List MemoryDesc}
    (h : findMemoryRegion max memoryType exceptType ms = .ok rs) : ∀ r ∈ rs, r.Grained (grain b) := by
  have hends : Ends (fun _ => True) (fun rs => ∀ r ∈ rs, r.Grained descGrain)
      (runs (findStep max memoryType exceptType) ms []) := by
    refine runs_induction (P := fun _ _ => True) (fun m rs hrs _ => ?_) ms [] (by simp)
      (Along.of_forall (fun _ _ _ => trivial) _)
    cases hs : findStep max memoryType exceptType m rs with
    | ok rs' => exact .ok (findStep_grained hrs hs)
    | error e => exact .error trivial
  rw [show runs _ ms [] = _ from h] at hends
  cases hends with
  | ok hrs => exact fun r hr => (hrs r hr).of_dvd (Nat.pow_dvd_pow 2 (min_le_right _ _))

/-- What `sys$mem_init` has done when it returns. -/
theorem memInit_ok {kip : KernelInterfacePage} {pagesize : Nat} {mi : MemInfo}
    (h : memInit kip pagesize = .ok mi) :
    ∃ found foundVm objects,
      findMemoryRegion numMiRegions memRam memIo kip.memoryInfo = .ok found ∧
      findMemoryRegion numMiVmregions memVm 0 kip.memoryInfo = .ok foundVm ∧
      removeChunk numMiVmregions 0 (pagesize - 1) foundVm = .ok mi.vmRegions ∧
      findInitialObjects numMiObjects kip = .ok objects ∧
      mi.objects = setFlags objects iofApp iofVirt ∧
      removePhysical pagesize objects found = .ok mi.regions := by
  obtain ⟨found, hfound, h⟩ := bind_ok h
  obtain ⟨_, _, h⟩ := bind_ok h
  obtain ⟨foundVm, hfoundVm, h⟩ := bind_ok h
  obtain ⟨vmRegions, hvm, h⟩ := bind_ok h
  obtain ⟨objects, hobjects, h⟩ := bind_ok h
  obtain ⟨regions, hregions, h⟩ := bind_ok h
  obtain rfl := Except.ok.inj h
  exact ⟨found, foundVm, objects, hfound, hfoundVm, hvm, hobjects, rfl, hregions⟩

/-- **Preloaded objects.**  After `sys$mem_init` no byte of an object with `VMS$IOF_PHYS` is free physical
    memory, and after the loop of `sys$bootstrap` no byte of one with `VMS$IOF_VIRT` is free virtual
    memory, if and only if every object whose last byte is the first one of a page has this byte
    outside the memory found, or in the pages of another object. -/
theorem memInit_clear (hb : 0 < b) (hb' : b < 64) {kip : KernelInterfacePage} {mi : MemInfo}
    {found vmRegions : List Region}
    (hfound : findMemoryRegion numMiRegions memRam memIo kip.memoryInfo = .ok found)
    (h : memInit kip (2 ^ b) = .ok mi)
    (hvm : removeVirtual (2 ^ b) mi.objects mi.vmRegions = .ok vmRegions) :
    (Clear (preloaded iofPhys mi.objects) mi.regions ∧ Clear (preloaded iofVirt mi.objects) vmRegions) ↔
      (EndsRemoved (2 ^ b) (preloaded iofPhys mi.objects) found ∧
        EndsRemoved (2 ^ b) (preloaded iofVirt mi.objects) mi.vmRegions) := by
  obtain ⟨found', foundVm, objects, hfound', hfoundVm, hguard, hobjects, hflags, hphys⟩ := memInit_ok h
  obtain rfl : found = found' := Except.ok.inj (hfound.symm.trans hfound')
  have hword := findInitialObjects_word hobjects
  have hguarded : ∀ r ∈ mi.vmRegions, r.Grained (grain b) := by
    have hpage : (2 ^ b - 1 + 1) % 2 ^ b = 0 := by
      rw [Nat.sub_add_cancel (Nat.two_pow_pos b), Nat.mod_self]
    exact (removeChunk_spec (one_lt_grain hb) (findMemoryRegion_grained hfoundVm) (Nat.zero_mod _)
      (mod_grain hpage) (by decide) hguard).2.1
  refine and_congr ?_ ?_
  · rw [hflags, preloaded_phys_setFlags]
    exact clear_iff hb hb' (preloaded_word hword) (findMemoryRegion_grained hfound) hphys
  · rw [hflags] at hvm ⊢
    exact clear_iff hb hb' (preloaded_word (setFlags_word hword)) hguarded hvm

end

theorem lowest_lt : 0 < 2 ^ 54 := by decide

theorem lastKib_lt : 1023 < 2 ^ 54 := by decide

/-- A machine with 1 MiB of memory and 1 MiB of virtual memory, with the root task and some modules. -/
def smallMachine (modules : List BootRec) : KernelInterfacePage where
  memoryInfo := [⟨0, 1023, 1, false, lowest_lt, lastKib_lt⟩, ⟨0, 1023, 1, true, lowest_lt, lastKib_lt⟩]
  sigma0Low := 0x20000
  sigma0High := 0x2ffff
  bootInfo := some
    { address := 0x9000
      size := 0x200
      records := .simpleExec 32 0x40000 0x3000 0x50000 0x1000 :: modules }

/-- The page of the first module's last byte is removed for the second one. -/
theorem neighbours_clear :
    ∃ mi vmRegions, memInit (smallMachine [.module 0x60000 0x1001, .module 0x61001 0xfff]) (2 ^ 12) = .ok mi ∧
      removeVirtual (2 ^ 12) mi.objects mi.vmRegions = .ok vmRegions ∧
      Clear (preloaded iofPhys mi.objects) mi.regions ∧ Clear (preloaded iofVirt mi.objects) vmRegions := by
  have hfound : findMemoryRegion numMiRegions memRam memIo
      (smallMachine [.module 0x60000 0x1001, .module 0x61001 0xfff]).memoryInfo = .ok [⟨0, 0xfffff⟩] := by
    decide +kernel
  have h : memInit (smallMachine [.module 0x60000 0x1001, .module 0x61001 0xfff]) (2 ^ 12) = .ok
      { regions := [⟨0, 0x8fff⟩, ⟨0xa000, 0x1ffff⟩, ⟨0x30000, 0x3ffff⟩, ⟨0x43000, 0x4ffff⟩,
          ⟨0x51000, 0x5ffff⟩, ⟨0x62000, 0xfffff⟩]
        ioRegions := []
        vmRegions := [⟨0x1000, 0xfffff⟩]
        objects := [⟨0x20000, 0x2ffff, 0x21⟩, ⟨0x40000, 0x42fff, 0x34⟩, ⟨0x50000, 0x50fff, 0x34⟩,
          ⟨0x60000, 0x61000, 0x32⟩, ⟨0x61001, 0x61fff, 0x32⟩, ⟨0x9000, 0x91ff, 0x38⟩]
        swapperBase := 0x100000 } := by
    decide +kernel
  have hvm : removeVirtual (2 ^ 12)
      [⟨0x20000, 0x2ffff, 0x21⟩, ⟨0x40000, 0x42fff, 0x34⟩, ⟨0x50000, 0x50fff, 0x34⟩,
        ⟨0x60000, 0x61000, 0x32⟩, ⟨0x61001, 0x61fff, 0x32⟩, ⟨0x9000, 0x91ff, 0x38⟩]
      [⟨0x1000, 0xfffff⟩] = .ok [⟨0x1000, 0x8fff⟩, ⟨0xa000, 0x3ffff⟩, ⟨0x43000, 0x4ffff⟩,
        ⟨0x51000, 0x5ffff⟩, ⟨0x62000, 0xfffff⟩] := by
    decide +kernel
  refine ⟨_, _, h, hvm, ?_⟩
  exact (memInit_clear (by decide) (by decide) hfound h hvm).mpr (by decide +kernel)

/-- The last byte of a module of one page and a byte is free memory. -/
theorem last_byte_not_clear :
    ¬ ∀ (b : Nat) (kip : KernelInterfacePage) (mi : MemInfo) (vmRegions : List Region),
      0 < b → b < 64 → memInit kip (2 ^ b) = .ok mi →
      removeVirtual (2 ^ b) mi.objects mi.vmRegions = .ok vmRegions →
        Clear (preloaded iofPhys mi.objects) mi.regions ∧
          Clear (preloaded iofVirt mi.objects) vmRegions := by
  intro h
  have hinit : memInit (smallMachine [.module 0x60000 0x1001]) (2 ^ 12) = .ok
      { regions := [⟨0, 0x8fff⟩, ⟨0xa000, 0x1ffff⟩, ⟨0x30000, 0x3ffff⟩, ⟨0x43000, 0x4ffff⟩,
          ⟨0x51000, 0x5ffff⟩, ⟨0x61000, 0xfffff⟩]
        ioRegions := []
        vmRegions := [⟨0x1000, 0xfffff⟩]
        objects := [⟨0x20000, 0x2ffff, 0x21⟩, ⟨0x40000, 0x42fff, 0x34⟩, ⟨0x50000, 0x50fff, 0x34⟩,
          ⟨0x60000, 0x61000, 0x32⟩, ⟨0x9000, 0x91ff, 0x38⟩]
        swapperBase := 0x100000 } := by
    decide +kernel
  have hvm : removeVirtual (2 ^ 12)
      [⟨0x20000, 0x2ffff, 0x21⟩, ⟨0x40000, 0x42fff, 0x34⟩, ⟨0x50000, 0x50fff, 0x34⟩,
        ⟨0x60000, 0x61000, 0x32⟩, ⟨0x9000, 0x91ff, 0x38⟩]
      [⟨0x1000, 0xfffff⟩] = .ok [⟨0x1000, 0x8fff⟩, ⟨0xa000, 0x3ffff⟩, ⟨0x43000, 0x4ffff⟩,
        ⟨0x51000, 0x5ffff⟩, ⟨0x61000, 0xfffff⟩] := by
    decide +kernel
  exact (h 12 _ _ _ (by decide) (by decide) hinit hvm).1 0x61000 (by decide +kernel) (by decide +kernel)

end FreeVMS.Boot
