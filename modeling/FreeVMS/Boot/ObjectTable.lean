import FreeVMS.Boot.MemInit
import FreeVMS.Lib.Trace

/-!
# The table of boot objects

`sys$find_initial_objects` fills an array of `max` entries.  The number of entries is compared with
`max` after each reserved region and after each boot record, for equality: a record of two objects
can step over it, and then nothing stops the writes.  In `Boot/MemInit.lean` an object beyond the array
is a fault; here it is written, and the events of a run are the writes.
-/

namespace FreeVMS.Boot.ObjectTable

open Alloc Trace

/-- `initial_objs[index] = obj` -/
structure Write where
  index : Nat
  obj : InitialObj
deriving DecidableEq

/-- The state is the index that `initial_objs` points to. -/
abbrev Fill (α : Type) : Type := Prog Write Nat Fault α

/-- `++` on an `unsigned int`, and `+=`. -/
def uintAdd (x y : Nat) : Nat := (x + y) % 2 ^ 32

/-- `max - count` -/
def uintSub (x y : Nat) : Nat := (x + 2 ^ 32 - y) % 2 ^ 32

/-- `sys$add_initial_object(initial_objs++, ..)` -/
def addInitialObject (obj : InitialObj) : Fill Unit := do
  let i ← read
  emit ⟨i, obj⟩
  update (· + 1)

def addInitialObjects : List InitialObj → Fill Unit
  | [] => pure ()
  | obj :: objs => do
      addInitialObject obj
      addInitialObjects objs

/-- The loop of `sys$bootinfo_find_initial_objects`; the flag says that it has left by `overflow`. -/
def recordsLoop (max : Nat) : List BootRec → Nat → Fill (Nat × Bool)
  | [], count => pure (count, false)
  | record :: rest, count =>
      match recordObjects record with
      | .error e => raise e
      | .ok objs => do
          addInitialObjects objs
          if objs.length > 0 ∧ uintAdd count objs.length = max then
            pure (uintAdd count objs.length, true)
          else recordsLoop max rest (uintAdd count objs.length)

/-- `sys$bootinfo_find_initial_objects`; `num_recs` is an `unsigned int`. -/
def bootinfoFindInitialObjects (max : Nat) : Option BootInfo → Fill Nat
  | none => pure 0
  | some bootinfo => do
      let (count, overflow) ←
        recordsLoop max (bootinfo.records.take (bootinfo.records.length % 2 ^ 32)) 0
      if overflow then pure count
      else do
        addInitialObject ⟨bootinfo.address.toNat,
          wordAdd bootinfo.address.toNat (wordSub bootinfo.size.toNat 1),
          iofBoot ||| iofPhys ||| iofVirt⟩
        pure (uintAdd count 1)

/-- The loop of `sys$find_initial_objects` over the memory descriptors. -/
def reservedLoop (max : Nat) : List MemoryDesc → Nat → Fill (Nat × Bool)
  | [], count => pure (count, false)
  | m :: rest, count =>
      match findMemoryInfo m with
      | .error e => raise e
      | .ok info =>
          if info.physical ∧ info.type = l4ReservedMemoryType then do
            addInitialObject ⟨info.low, info.high, iofReserved ||| iofPhys⟩
            if uintAdd count 1 = max then pure (uintAdd count 1, true)
            else reservedLoop max rest (uintAdd count 1)
          else reservedLoop max rest count

/-- `sys$find_initial_objects` -/
def findInitialObjects (max : Nat) (kip : KernelInterfacePage) : Fill Nat := do
  let (count, overflow) ← reservedLoop max kip.memoryInfo 0
  if overflow then pure count
  else do
    addInitialObject ⟨kip.sigma0Low.toNat, kip.sigma0High.toNat, iofReserved ||| iofPhys⟩
    if uintAdd count 1 = max then pure (uintAdd count 1)
    else do
      let boot ← bootinfoFindInitialObjects (uintSub max (uintAdd count 1)) kip.bootInfo
      pure (uintAdd (uintAdd count 1) boot)

/-- Only entries below `max` are written, and the function panics or returns how many were written,
    at most `max`. -/
def Bounded (max : Nat) (kip : KernelInterfacePage) : Prop :=
  (∀ w ∈ (findInitialObjects max kip 0).log, w.index < max) ∧
    match (findInitialObjects max kip 0).result with
    | .ok count => count = (findInitialObjects max kip 0).log.length ∧ count ≤ max
    | .error e => e = .panic

/-- How many objects a record has; none if it makes the function panic. -/
def objectCount (record : BootRec) : Nat :=
  match recordObjects record with
  | .ok objs => objs.length
  | .error _ => 0

def objectsOf (records : List BootRec) : Nat := (records.map objectCount).sum

/-- The descriptor is of a reserved region of physical memory. -/
def Reserved (m : MemoryDesc) : Prop := m.v = false ∧ m.type = l4ReservedMemoryType

instance : DecidablePred Reserved := fun m =>
  inferInstanceAs (Decidable (m.v = false ∧ m.type = l4ReservedMemoryType))

def reservedCount (ms : List MemoryDesc) : Nat := ms.countP fun m => decide (Reserved m)

/-- A record of two objects comes when there is room for one. -/
def Straddles (room : Nat) (records : List BootRec) : Prop :=
  ∃ pre record post, records = pre ++ record :: post ∧ (∀ r ∈ pre, objectCount r ≠ 0) ∧
    objectsOf pre + 1 = room ∧ objectCount record = 2

/-- The table is one entry short for a record: the reserved regions, Sigma0 and the records before it
    leave room for one object, and it has two. -/
def Short (max : Nat) (kip : KernelInterfacePage) : Prop :=
  (∀ m ∈ kip.memoryInfo, l4MemoryDescLow m < l4MemoryDescHigh m) ∧
    ∃ bootinfo, kip.bootInfo = some bootinfo ∧
      reservedCount kip.memoryInfo + 1 < max ∧
      Straddles (max - (reservedCount kip.memoryInfo + 1))
        (bootinfo.records.take (bootinfo.records.length % 2 ^ 32))

/-! ### Writes in order -/

/-- The entries are written one after the other. -/
def InOrder {α : Type} (m : Fill α) : Prop :=
  ∀ i, (m i).state = i + (m i).log.length ∧ (m i).log.map Write.index = List.range' i (m i).log.length

section

variable {α β : Type}

theorem inOrder_pure (a : α) : InOrder (pure a : Fill α) := fun _ => ⟨rfl, rfl⟩

theorem inOrder_raise (e : Fault) : InOrder (raise e : Fill α) := fun _ => ⟨rfl, rfl⟩

theorem inOrder_add (obj : InitialObj) : InOrder (addInitialObject obj) := fun _ => ⟨rfl, rfl⟩

theorem pure_run (a : α) (i : Nat) : (pure a : Fill α) i = ⟨[], i, .ok a⟩ := rfl

/-- A program after one that has returned. -/
theorem bind_run {m : Fill α} {f : α → Fill β} {i j : Nat} {a : α} {log : List Write}
    (h : m i = ⟨log, j, .ok a⟩) :
    (m >>= f) i = ⟨log ++ (f a j).log, (f a j).state, (f a j).result⟩ := by
  show Prog.bind m f i = _
  rw [Prog.bind, h]

theorem bind_fault {m : Fill α} {f : α → Fill β} {i j : Nat} {e : Fault} {log : List Write}
    (h : m i = ⟨log, j, .error e⟩) : (m >>= f) i = ⟨log, j, .error e⟩ := by
  show Prog.bind m f i = _
  rw [Prog.bind, h]

theorem InOrder.bind {m : Fill α} {f : α → Fill β} (hm : InOrder m) (hf : ∀ a, InOrder (f a)) :
    InOrder (m >>= f) := by
  intro i
  obtain ⟨hstate, hlog⟩ := hm i
  cases hr : (m i).result with
  | error e =>
    have hmi : m i = ⟨(m i).log, (m i).state, .error e⟩ := by rw [← hr]
    rw [bind_fault hmi]
    exact ⟨hstate, hlog⟩
  | ok a =>
    have hmi : m i = ⟨(m i).log, i + (m i).log.length, .ok a⟩ := by rw [← hstate, ← hr]
    obtain ⟨hstate', hlog'⟩ := hf a (i + (m i).log.length)
    rw [bind_run hmi]
    refine ⟨?_, ?_⟩
    · rw [hstate', List.length_append, Nat.add_assoc]
    · rw [List.map_append, hlog, hlog', List.length_append]
      exact List.range'_append_1

theorem inOrder_ite {c : Prop} [Decidable c] {m m' : Fill α} (h : InOrder m) (h' : InOrder m') :
    InOrder (if c then m else m') := by
  split
  · exact h
  · exact h'

theorem inOrder_addAll (objs : List InitialObj) : InOrder (addInitialObjects objs) := by
  induction objs with
  | nil => exact inOrder_pure ()
  | cons obj objs ih => exact (inOrder_add obj).bind fun _ => ih

theorem inOrder_records (max : Nat) (records : List BootRec) (count : Nat) :
    InOrder (recordsLoop max records count) := by
  induction records generalizing count with
  | nil => exact inOrder_pure _
  | cons record rest ih =>
    rw [recordsLoop]
    cases recordObjects record with
    | error e => exact inOrder_raise e
    | ok objs => exact (inOrder_addAll objs).bind fun _ => inOrder_ite (inOrder_pure _) (ih _)

theorem inOrder_bootinfo (max : Nat) (bootInfo : Option BootInfo) :
    InOrder (bootinfoFindInitialObjects max bootInfo) := by
  cases bootInfo with
  | none => exact inOrder_pure 0
  | some bootinfo =>
    refine (inOrder_records _ _ _).bind fun r => ?_
    exact inOrder_ite (inOrder_pure _) ((inOrder_add _).bind fun _ => inOrder_pure _)

theorem inOrder_reserved (max : Nat) (ms : List MemoryDesc) (count : Nat) :
    InOrder (reservedLoop max ms count) := by
  induction ms generalizing count with
  | nil => exact inOrder_pure _
  | cons m rest ih =>
    rw [reservedLoop]
    cases findMemoryInfo m with
    | error e => exact inOrder_raise e
    | ok info =>
      refine inOrder_ite ((inOrder_add _).bind fun _ => ?_) (ih _)
      exact inOrder_ite (inOrder_pure _) (ih _)

theorem inOrder_find (max : Nat) (kip : KernelInterfacePage) :
    InOrder (findInitialObjects max kip) := by
  refine (inOrder_reserved _ _ _).bind fun r => inOrder_ite (inOrder_pure _) ?_
  refine (inOrder_add _).bind fun _ => inOrder_ite (inOrder_pure _) ?_
  exact (inOrder_bootinfo _ _).bind fun _ => inOrder_pure _

end

/-! ### Room for every record -/

/-- A panic is a way to stop. -/
def within (max : Nat) : Judge Write Fault := ⟨fun _ => True, fun w => w.index < max, (· = .panic)⟩

section

variable {max room i count : Nat} {records : List BootRec} {ms : List MemoryDesc}

theorem uintAdd_eq {x y : Nat} (h : x + y < 2 ^ 32) : uintAdd x y = x + y := Nat.mod_eq_of_lt h

theorem uintSub_eq {x y : Nat} (h : y ≤ x) (hx : x < 2 ^ 32) : uintSub x y = x - y := by
  rw [uintSub]
  omega

theorem recordObjects_fault {record : BootRec} {e : Fault} (h : recordObjects record = .error e) :
    e = .panic := by
  cases record with
  | other type => exact (Except.error.inj h).symm
  | module start size => cases h
  | multiboot address => cases h
  | simpleExec flags tstart tsize dstart dsize =>
    simp only [recordObjects] at h
    split at h
    · cases h
    · cases h

theorem recordObjects_length {record : BootRec} {objs : List InitialObj}
    (h : recordObjects record = .ok objs) : objs.length = 1 ∨ objs.length = 2 := by
  cases record with
  | other type => cases h
  | module start size =>
    obtain rfl := Except.ok.inj h
    exact .inl rfl
  | multiboot address =>
    obtain rfl := Except.ok.inj h
    exact .inl rfl
  | simpleExec flags tstart tsize dstart dsize =>
    simp only [recordObjects] at h
    split at h
    · obtain rfl := Except.ok.inj h
      exact .inr rfl
    · obtain rfl := Except.ok.inj h
      exact .inl rfl

theorem objectCount_ok {record : BootRec} {objs : List InitialObj}
    (h : recordObjects record = .ok objs) : objectCount record = objs.length := by
  rw [objectCount, h]

/-- A record with objects that leaves some room. -/
theorem straddles_cons {record : BootRec} {rest : List BootRec} (h : objectCount record ≠ 0)
    (hroom : objectCount record < room) :
    Straddles room (record :: rest) ↔ Straddles (room - objectCount record) rest := by
  constructor
  · rintro ⟨pre, r, post, heq, hpre, hsum, htwo⟩
    cases pre with
    | nil =>
      obtain ⟨rfl, rfl⟩ := List.cons.inj heq
      have hone : 1 = room := hsum
      omega
    | cons r' pre =>
      obtain ⟨rfl, rfl⟩ := List.cons.inj heq
      refine ⟨pre, r, post, rfl, fun x hx => hpre x (List.mem_cons_of_mem _ hx), ?_, htwo⟩
      have hall : objectCount record + objectsOf pre + 1 = room := hsum
      omega
  · rintro ⟨pre, r, post, rfl, hpre, hsum, htwo⟩
    refine ⟨record :: pre, r, post, rfl, fun x hx => ?_, ?_, htwo⟩
    · rcases List.mem_cons.mp hx with rfl | hx
      · exact h
      · exact hpre x hx
    · show objectCount record + objectsOf pre + 1 = room
      omega

theorem wp_addInitialObject {obj : InitialObj} {Q : Unit → Nat → Prop} (hi : i < max)
    (hQ : Q () (i + 1)) : Wp (within max) (addInitialObject obj) i Q := by
  refine wp_bind (wp_read ?_)
  exact wp_bind (wp_emit fun _ => ⟨hi, wp_update hQ⟩)

theorem wp_addInitialObjects {objs : List InitialObj} {Q : Unit → Nat → Prop}
    (hi : i + objs.length ≤ max) (hQ : Q () (i + objs.length)) :
    Wp (within max) (addInitialObjects objs) i Q := by
  induction objs generalizing i with
  | nil => exact wp_pure hQ
  | cons obj objs ih =>
    rw [List.length_cons] at hi hQ
    refine wp_bind (wp_addInitialObject (by omega) ?_)
    refine ih (by omega) ?_
    rwa [show i + 1 + objs.length = i + (objs.length + 1) by omega]

/-- The records have room unless one of them straddles the end. -/
theorem wp_recordsLoop (hroom : room < 2 ^ 32) (hcount : count < room) (hmax : i + (room - count) ≤ max)
    (hfit : ¬ Straddles (room - count) records) :
    Wp (within max) (recordsLoop room records count) i fun r next =>
      r.1 ≤ room ∧ next + (room - r.1) = i + (room - count) ∧ (r.2 = false → r.1 < room) := by
  induction records generalizing i count with
  | nil => exact wp_pure ⟨hcount.le, rfl, fun _ => hcount⟩
  | cons record rest ih =>
    rw [recordsLoop]
    cases hobjs : recordObjects record with
    | error e => exact wp_raise (recordObjects_fault hobjs)
    | ok objs =>
      have hlength := recordObjects_length hobjs
      have hobjcount := objectCount_ok hobjs
      have hle : count + objs.length ≤ room := by
        rcases hlength with hone | htwo
        · omega
        · by_contra hover
          refine hfit ⟨[], record, rest, rfl, fun _ hx => absurd hx List.not_mem_nil, ?_, ?_⟩
          · show 0 + 1 = room - count
            omega
          · rw [hobjcount, htwo]
      have hsum : uintAdd count objs.length = count + objs.length :=
        uintAdd_eq (lt_of_le_of_lt hle hroom)
      refine wp_bind (wp_addInitialObjects (by omega) ?_)
      rw [hsum]
      refine wp_ite (fun hfull => wp_pure ⟨hle, ?_, fun hfalse => by cases hfalse⟩) fun hmore => ?_
      · dsimp only
        omega
      · have hlt : count + objs.length < room := by omega
        have hrest : ¬ Straddles (room - (count + objs.length)) rest := by
          intro hs
          refine hfit ((straddles_cons (by omega) (by omega)).mpr ?_)
          rwa [hobjcount, Nat.sub_sub]
        refine (ih hlt (by omega) hrest).mono fun r next hr => ?_
        obtain ⟨hle', hnext, hmore'⟩ := hr
        exact ⟨hle', by omega, hmore'⟩

theorem wp_bootinfo {bootInfo : Option BootInfo} (hroom : room < 2 ^ 32) (hpos : 0 < room)
    (hmax : i + room ≤ max)
    (hfit : ∀ bootinfo, bootInfo = some bootinfo →
      ¬ Straddles room (bootinfo.records.take (bootinfo.records.length % 2 ^ 32))) :
    Wp (within max) (bootinfoFindInitialObjects room bootInfo) i fun count next =>
      count ≤ room ∧ next = i + count := by
  cases bootInfo with
  | none => exact wp_pure ⟨Nat.zero_le _, rfl⟩
  | some bootinfo =>
    refine wp_bind ((wp_recordsLoop hroom hpos hmax (hfit bootinfo rfl)).mono ?_)
    rintro ⟨count, overflow⟩ next ⟨hle, hnext, hmore⟩
    dsimp only at hle hnext hmore ⊢
    refine wp_ite (fun _ => wp_pure ⟨hle, by omega⟩) fun hno => ?_
    have hlt : count < room := hmore (by simpa using hno)
    refine wp_bind (wp_addInitialObject (by omega) (wp_pure ?_))
    rw [uintAdd_eq (by omega)]
    exact ⟨hlt, by omega⟩

theorem findMemoryInfo_fault {m : MemoryDesc} {e : Fault} (h : findMemoryInfo m = .error e) :
    e = .panic := by
  rw [findMemoryInfo] at h
  split at h
  · exact (Except.error.inj h).symm
  · cases h

/-- What the loop sees in a descriptor. -/
theorem findMemoryInfo_ok {m : MemoryDesc} {info : MemoryInfo} (h : findMemoryInfo m = .ok info) :
    l4MemoryDescLow m < l4MemoryDescHigh m ∧
      (info.physical = true ∧ info.type = l4ReservedMemoryType ↔ Reserved m) := by
  rw [findMemoryInfo] at h
  split at h
  · cases h
  · rename_i hlt
    obtain rfl := Except.ok.inj h
    refine ⟨Nat.lt_of_not_le hlt, ?_⟩
    simp [Reserved]

theorem reservedCount_cons (m : MemoryDesc) (ms : List MemoryDesc) :
    reservedCount (m :: ms) = (if Reserved m then 1 else 0) + reservedCount ms := by
  rw [reservedCount, List.countP_cons, Nat.add_comm, reservedCount]
  simp

theorem wp_reservedLoop (hmax : max < 2 ^ 32) (hcount : count < max) :
    Wp (within max) (reservedLoop max ms count) count fun r next =>
      next = r.1 ∧ r.1 ≤ max ∧ (r.2 = false → r.1 < max ∧ r.1 = count + reservedCount ms ∧
        ∀ m ∈ ms, l4MemoryDescLow m < l4MemoryDescHigh m) := by
  induction ms generalizing count with
  | nil => exact wp_pure ⟨rfl, hcount.le, fun _ => ⟨hcount, rfl, by simp⟩⟩
  | cons m rest ih =>
    rw [reservedLoop]
    cases hinfo : findMemoryInfo m with
    | error e => exact wp_raise (findMemoryInfo_fault hinfo)
    | ok info =>
      obtain ⟨hproper, hreserved⟩ := findMemoryInfo_ok hinfo
      have hsum : uintAdd count 1 = count + 1 := uintAdd_eq (by omega)
      dsimp only
      rw [hsum, reservedCount_cons]
      refine wp_ite (fun hyes => wp_bind (wp_addInitialObject hcount ?_)) fun hno => ?_
      · rw [if_pos (hreserved.mp hyes)]
        refine wp_ite (fun hfull => wp_pure ⟨rfl, hfull.le, fun hfalse => by cases hfalse⟩)
          fun hmore => ?_
        refine (ih (by omega)).mono fun r next hr => ⟨hr.1, hr.2.1, fun hf => ?_⟩
        obtain ⟨hlt, hr1, hall⟩ := hr.2.2 hf
        exact ⟨hlt, by omega, List.forall_mem_cons.mpr ⟨hproper, hall⟩⟩
      · rw [if_neg fun hr => hno (hreserved.mpr hr), Nat.zero_add]
        refine (ih hcount).mono fun r next hr => ⟨hr.1, hr.2.1, fun hf => ?_⟩
        obtain ⟨hlt, hr1, hall⟩ := hr.2.2 hf
        exact ⟨hlt, hr1, List.forall_mem_cons.mpr ⟨hproper, hall⟩⟩

theorem wp_findInitialObjects {kip : KernelInterfacePage} (hpos : 1 ≤ max) (hmax : max < 2 ^ 32)
    (hfit : ¬ Short max kip) :
    Wp (within max) (findInitialObjects max kip) 0 fun count next => next = count ∧ count ≤ max := by
  refine wp_bind ((wp_reservedLoop hmax hpos).mono ?_)
  rintro ⟨count, overflow⟩ next ⟨hnext, hle, hmore⟩
  dsimp only at hnext hle hmore ⊢
  obtain rfl := hnext
  refine wp_ite (fun _ => wp_pure ⟨rfl, hle⟩) fun hno => ?_
  obtain ⟨hlt, hcount, hproper⟩ := hmore (by simpa using hno)
  rw [uintAdd_eq (show next + 1 < 2 ^ 32 by omega)]
  refine wp_bind (wp_addInitialObject hlt ?_)
  refine wp_ite (fun _ => wp_pure ⟨rfl, hlt⟩) fun hroom => ?_
  rw [uintSub_eq (by omega) hmax]
  refine wp_bind ((wp_bootinfo (by omega) (by omega) (by omega) fun bootinfo hboot hs => ?_).mono ?_)
  · have hreserved : next = reservedCount kip.memoryInfo := by omega
    rw [hreserved] at hs hroom hlt
    exact hfit ⟨hproper, bootinfo, hboot, by omega, hs⟩
  · rintro boot next' ⟨hle', rfl⟩
    rw [uintAdd_eq (by omega)]
    exact wp_pure ⟨rfl, by omega⟩

/-! ### No room -/

theorem log_bind {α β : Type} {m : Fill α} {f : α → Fill β} {w : Write} (h : w ∈ (m i).log) :
    w ∈ ((m >>= f) i).log := by
  cases hr : (m i).result with
  | ok a =>
    have hmi : m i = ⟨(m i).log, (m i).state, .ok a⟩ := by rw [← hr]
    rw [bind_run hmi]
    exact List.mem_append_left _ h
  | error e =>
    have hmi : m i = ⟨(m i).log, (m i).state, .error e⟩ := by rw [← hr]
    rw [bind_fault hmi]
    exact h

theorem addInitialObject_run (obj : InitialObj) (i : Nat) :
    addInitialObject obj i = ⟨[⟨i, obj⟩], i + 1, .ok ()⟩ := rfl

/-- The objects from an index on. -/
def writes : Nat → List InitialObj → List Write
  | _, [] => []
  | i, obj :: objs => ⟨i, obj⟩ :: writes (i + 1) objs

theorem writes_append (i : Nat) (objs more : List InitialObj) :
    writes i (objs ++ more) = writes i objs ++ writes (i + objs.length) more := by
  induction objs generalizing i with
  | nil => rfl
  | cons obj objs ih =>
    rw [List.cons_append, writes, writes, ih, List.length_cons, Nat.add_right_comm, Nat.add_assoc,
      List.cons_append]

theorem addInitialObjects_run (objs : List InitialObj) (i : Nat) :
    addInitialObjects objs i = ⟨writes i objs, i + objs.length, .ok ()⟩ := by
  induction objs generalizing i with
  | nil => rfl
  | cons obj objs ih =>
    rw [addInitialObjects, bind_run (addInitialObject_run obj i), ih, List.length_cons,
      Nat.add_right_comm, Nat.add_assoc]
    rfl

/-- Every one of the entries is written. -/
theorem addInitialObjects_writes {objs : List InitialObj} {k : Nat} (hk : k < objs.length) :
    ∃ w ∈ (addInitialObjects objs i).log, w.index = i + k := by
  obtain ⟨hstate, hindex⟩ := inOrder_addAll objs i
  rw [addInitialObjects_run] at hstate hindex ⊢
  dsimp only at hstate hindex ⊢
  have hmem : i + k ∈ (writes i objs).map Write.index := by
    rw [hindex, List.mem_range'_1]
    omega
  obtain ⟨w, hw, heq⟩ := List.mem_map.mp hmem
  exact ⟨w, hw, heq⟩

/-- The second object of a record that straddles the end is written behind it. -/
theorem recordsLoop_overruns (hroom : room < 2 ^ 32) (hcount : count < room)
    (h : Straddles (room - count) records) :
    ∃ w ∈ (recordsLoop room records count i).log, w.index = i + (room - count) := by
  induction records generalizing i count with
  | nil =>
    obtain ⟨pre, record, post, heq, -⟩ := h
    simp at heq
  | cons record rest ih =>
    obtain ⟨pre, r, post, heq, hpre, hsum, htwo⟩ := h
    cases pre with
    | nil =>
      obtain ⟨rfl, rfl⟩ := List.cons.inj heq
      have hone : 1 = room - count := hsum
      cases hobjs : recordObjects record with
      | error e =>
        rw [objectCount, hobjs] at htwo
        cases htwo
      | ok objs =>
        rw [objectCount_ok hobjs] at htwo
        obtain ⟨w, hw, hindex⟩ :=
          addInitialObjects_writes (i := i) (show 1 < objs.length by omega)
        refine ⟨w, ?_, by omega⟩
        rw [recordsLoop, hobjs]
        exact log_bind hw
    | cons r' pre =>
      obtain ⟨rfl, rfl⟩ := List.cons.inj heq
      have hne := hpre record List.mem_cons_self
      have hall : objectCount record + objectsOf pre + 1 = room - count := hsum
      cases hobjs : recordObjects record with
      | error e =>
        rw [objectCount, hobjs] at hne
        exact absurd rfl hne
      | ok objs =>
        rw [objectCount_ok hobjs] at hne hall
        have hadd : uintAdd count objs.length = count + objs.length := uintAdd_eq (by omega)
        have hrest : Straddles (room - (count + objs.length)) (pre ++ r :: post) :=
          ⟨pre, r, post, rfl, fun x hx => hpre x (List.mem_cons_of_mem _ hx), by omega, htwo⟩
        obtain ⟨w, hw, hindex⟩ := @ih (i + objs.length) (count + objs.length) (by omega) hrest
        refine ⟨w, ?_, by omega⟩
        rw [recordsLoop, hobjs]
        dsimp only
        rw [bind_run (addInitialObjects_run objs i), hadd, if_neg (by omega)]
        exact List.mem_append_right _ hw

/-- The loop over the descriptors when there is more room. -/
theorem reservedLoop_run (hmax : max < 2 ^ 32) (hroom : count + reservedCount ms < max)
    (hproper : ∀ m ∈ ms, l4MemoryDescLow m < l4MemoryDescHigh m) (i : Nat) :
    ∃ log, reservedLoop max ms count i =
      ⟨log, i + reservedCount ms, .ok (count + reservedCount ms, false)⟩ := by
  induction ms generalizing i count with
  | nil => exact ⟨[], rfl⟩
  | cons m rest ih =>
    obtain ⟨hm, hrest⟩ := List.forall_mem_cons.mp hproper
    rw [reservedCount_cons] at hroom ⊢
    have hinfo : findMemoryInfo m =
        .ok ⟨l4MemoryDescLow m, l4MemoryDescHigh m, m.type, !m.v⟩ := if_neg (Nat.not_le_of_lt hm)
    have hreserved := (findMemoryInfo_ok hinfo).2
    rw [reservedLoop, hinfo]
    dsimp only
    by_cases hres : Reserved m
    · rw [if_pos hres] at hroom ⊢
      rw [if_pos (hreserved.mpr hres), uintAdd_eq (by omega), if_neg (by omega)]
      obtain ⟨log, hlog⟩ := @ih (count + 1) (by omega) hrest (i + 1)
      exact ⟨_, by rw [bind_run (addInitialObject_run _ i), hlog, ← Nat.add_assoc, ← Nat.add_assoc]⟩
    · rw [if_neg hres, Nat.zero_add] at hroom ⊢
      rw [if_neg fun h => hres (hreserved.mp h)]
      exact ih hroom hrest i

/-- A short table is overrun by one entry. -/
theorem findInitialObjects_overruns {kip : KernelInterfacePage} (hmax : max < 2 ^ 32)
    (h : Short max kip) : ∃ w ∈ (findInitialObjects max kip 0).log, w.index = max := by
  obtain ⟨hproper, bootinfo, hboot, hroom, hs⟩ := h
  obtain ⟨log, hrun⟩ := reservedLoop_run hmax (show 0 + reservedCount kip.memoryInfo < max by omega)
    hproper 0
  rw [Nat.zero_add] at hrun
  have hadd : uintAdd (reservedCount kip.memoryInfo) 1 = reservedCount kip.memoryInfo + 1 :=
    uintAdd_eq (by omega)
  obtain ⟨w, hw, hindex⟩ := @recordsLoop_overruns _ (reservedCount kip.memoryInfo + 1) 0 _
    (show max - (reservedCount kip.memoryInfo + 1) < 2 ^ 32 by omega) (by omega) hs
  refine ⟨w, ?_, by omega⟩
  rw [findInitialObjects, bind_run hrun]
  refine List.mem_append_right _ ?_
  dsimp only
  rw [if_neg Bool.false_ne_true, hadd, if_neg (by omega),
    bind_run (addInitialObject_run _ (reservedCount kip.memoryInfo)), uintSub_eq (by omega) hmax,
    hboot]
  exact List.mem_append_right _ (log_bind (log_bind hw))

/-! ### The objects that `Boot/MemInit.lean` lists -/

theorem recordsLoop_eq (hroom : room < 2 ^ 32) (hcount : count < room) {objs : List InitialObj}
    {overflow : Bool} (h : Boot.recordsLoop room records count = .ok (objs, overflow)) (i : Nat) :
    recordsLoop room records count i =
        ⟨writes i objs, i + objs.length, .ok (count + objs.length, overflow)⟩ ∧
      count + objs.length ≤ room ∧ (overflow = false → count + objs.length < room) := by
  induction records generalizing i count objs overflow with
  | nil =>
    obtain ⟨rfl, rfl⟩ := Prod.mk.inj (Except.ok.inj h)
    exact ⟨rfl, hcount.le, fun _ => hcount⟩
  | cons record rest ih =>
    obtain ⟨first, hfirst, h⟩ := bind_ok h
    have hlength := recordObjects_length hfirst
    by_cases hover : count + first.length > room
    · rw [if_pos hover] at h
      cases h
    rw [if_neg hover] at h
    have hadd : uintAdd count first.length = count + first.length := uintAdd_eq (by omega)
    rw [recordsLoop, hfirst]
    dsimp only
    rw [bind_run (addInitialObjects_run first i), hadd]
    by_cases hfull : count + first.length = room
    · rw [if_pos hfull] at h
      obtain ⟨rfl, rfl⟩ := Prod.mk.inj (Except.ok.inj h)
      rw [if_pos ⟨by omega, hfull⟩]
      rw [pure_run, List.append_nil]
      exact ⟨rfl, hfull.le, fun hfalse => by cases hfalse⟩
    · rw [if_neg hfull] at h
      obtain ⟨⟨more, overflow'⟩, hmore, h⟩ := bind_ok h
      obtain ⟨rfl, rfl⟩ := Prod.mk.inj (Except.ok.inj h)
      obtain ⟨hrun, hle, hlt⟩ := ih (by omega) hmore (i + first.length)
      rw [if_neg fun hc => hfull hc.2, hrun, writes_append, List.length_append, ← Nat.add_assoc,
        ← Nat.add_assoc]
      exact ⟨rfl, hle, hlt⟩

theorem bootinfo_eq (hroom : room < 2 ^ 32) (hpos : 0 < room) {bootInfo : Option BootInfo}
    (hentries : ∀ bootinfo, bootInfo = some bootinfo → bootinfo.records.length < 2 ^ 32)
    {objs : List InitialObj} (h : Boot.bootinfoFindInitialObjects room bootInfo = .ok objs)
    (i : Nat) :
    bootinfoFindInitialObjects room bootInfo i =
        ⟨writes i objs, i + objs.length, .ok objs.length⟩ ∧ objs.length ≤ room := by
  cases bootInfo with
  | none =>
    obtain rfl := Except.ok.inj h
    exact ⟨rfl, Nat.zero_le _⟩
  | some bootinfo =>
    obtain ⟨⟨found, overflow⟩, hfound, h⟩ := bind_ok h
    obtain ⟨hrun, hle, hlt⟩ := recordsLoop_eq hroom hpos hfound i
    rw [Nat.zero_add] at hrun hle hlt
    rw [bootinfoFindInitialObjects, Nat.mod_eq_of_lt (hentries bootinfo rfl), List.take_length,
      bind_run hrun]
    cases overflow with
    | true =>
      obtain rfl := Except.ok.inj h
      dsimp only
      rw [if_pos rfl, pure_run, List.append_nil]
      exact ⟨rfl, hle⟩
    | false =>
      obtain rfl := Except.ok.inj h
      have hroom' := hlt rfl
      rw [writes_append, List.length_append]
      refine ⟨?_, hroom'⟩
      show Outcome.mk _ _ (Except.ok (uintAdd found.length 1)) = _
      rw [uintAdd_eq (by omega)]
      rfl

theorem reservedLoop_eq (hmax : max < 2 ^ 32) (hcount : count < max) {objs : List InitialObj}
    {overflow : Bool} (h : Boot.reservedLoop max ms count = .ok (objs, overflow)) (i : Nat) :
    reservedLoop max ms count i =
        ⟨writes i objs, i + objs.length, .ok (count + objs.length, overflow)⟩ ∧
      (overflow = false → count + objs.length < max) := by
  induction ms generalizing i count objs overflow with
  | nil =>
    obtain ⟨rfl, rfl⟩ := Prod.mk.inj (Except.ok.inj h)
    exact ⟨rfl, fun _ => hcount⟩
  | cons m rest ih =>
    obtain ⟨info, hinfo, h⟩ := bind_ok h
    have hadd : uintAdd count 1 = count + 1 := uintAdd_eq (by omega)
    rw [reservedLoop, hinfo]
    dsimp only at h ⊢
    by_cases hres : info.physical = true ∧ info.type = l4ReservedMemoryType
    · rw [if_pos hres] at h
      rw [if_pos hres, bind_run (addInitialObject_run _ i), hadd]
      by_cases hfull : count + 1 = max
      · rw [if_pos hfull] at h
        obtain ⟨rfl, rfl⟩ := Prod.mk.inj (Except.ok.inj h)
        rw [if_pos hfull]
        exact ⟨rfl, fun hfalse => by cases hfalse⟩
      · rw [if_neg hfull] at h
        obtain ⟨⟨more, overflow'⟩, hmore, h⟩ := bind_ok h
        obtain ⟨rfl, rfl⟩ := Prod.mk.inj (Except.ok.inj h)
        obtain ⟨hrun, hlt⟩ := ih (by omega) hmore (i + 1)
        rw [if_neg hfull, hrun, List.length_cons, Nat.add_comm more.length 1, ← Nat.add_assoc,
          ← Nat.add_assoc]
        exact ⟨rfl, hlt⟩
    · rw [if_neg hres] at h
      rw [if_neg hres]
      exact ih hcount h i

/-- What is written when nothing is written beyond the array. -/
theorem findInitialObjects_eq (hpos : 1 ≤ max) (hmax : max < 2 ^ 32) {kip : KernelInterfacePage}
    (hentries : ∀ bootinfo, kip.bootInfo = some bootinfo → bootinfo.records.length < 2 ^ 32)
    {objs : List InitialObj} (h : Boot.findInitialObjects max kip = .ok objs) :
    findInitialObjects max kip 0 = ⟨writes 0 objs, objs.length, .ok objs.length⟩ := by
  obtain ⟨⟨reserved, overflow⟩, hreserved, h⟩ := bind_ok h
  obtain ⟨hrun, hlt⟩ := reservedLoop_eq hmax hpos hreserved 0
  rw [Nat.zero_add] at hrun hlt
  rw [findInitialObjects, bind_run hrun]
  cases overflow with
  | true =>
    obtain rfl := Except.ok.inj h
    dsimp only
    rw [if_pos rfl, pure_run, List.append_nil]
  | false =>
    have hroom := hlt rfl
    have hadd : uintAdd reserved.length 1 = reserved.length + 1 := uintAdd_eq (by omega)
    dsimp only
    rw [if_neg Bool.false_ne_true, hadd, bind_run (addInitialObject_run _ _)]
    simp only [Bool.false_eq_true, if_false, List.length_append, List.length_singleton] at h
    by_cases hfull : reserved.length + 1 = max
    · rw [if_pos hfull] at h
      obtain rfl := Except.ok.inj h
      rw [if_pos hfull, writes_append, List.length_append, Nat.zero_add]
      rfl
    · rw [if_neg hfull] at h
      obtain ⟨boot, hboot, h⟩ := bind_ok h
      obtain rfl := Except.ok.inj h
      obtain ⟨hrun', hle⟩ := bootinfo_eq (by omega) (by omega) hentries hboot (reserved.length + 1)
      rw [if_neg hfull, uintSub_eq (by omega) hmax, bind_run hrun', pure_run, List.append_nil,
        uintAdd_eq (by omega)]
      simp only [writes_append, writes, List.length_append, List.length_singleton, Nat.zero_add,
        List.append_assoc, Nat.add_assoc]

end

/-- **When the table is large enough.**  For every kernel interface page and every `max`, only entries
    below `max` are written and the number of entries is returned, at most `max`, if and only if no
    boot record of two objects comes when there is room for one. -/
theorem bounded_iff {max : Nat} (hpos : 1 ≤ max) (hmax : max < 2 ^ 32) (kip : KernelInterfacePage) :
    Bounded max kip ↔ ¬ Short max kip := by
  constructor
  · intro hbounded hshort
    obtain ⟨w, hw, hindex⟩ := findInitialObjects_overruns hmax hshort
    exact absurd (hbounded.1 w hw) (by omega)
  · intro hfit
    have hwp := wp_findInitialObjects hpos hmax hfit
    obtain ⟨hfine, hres⟩ := hwp fun _ _ => trivial
    refine ⟨hfine, ?_⟩
    cases hr : (findInitialObjects max kip 0).result with
    | error e =>
      rw [hr] at hres
      exact hres
    | ok count =>
      rw [hr] at hres
      obtain ⟨hstate, hle⟩ := hres
      have horder := (inOrder_find max kip 0).1
      exact ⟨by omega, hle⟩

/-- A machine with Sigma0, some modules and the root task, whose text and data are apart. -/
def withModules (n : Nat) : KernelInterfacePage where
  memoryInfo := []
  sigma0Low := 0x20000
  sigma0High := 0x2ffff
  bootInfo := some
    { address := 0x9000
      size := 0x200
      records := List.replicate n (.module 0x60000 0x1000) ++
        [.simpleExec 32 0x40000 0x3000 0x50000 0x1000] }

/-- There is room for Sigma0, a module, the text, the data and the boot information. -/
theorem withModules_bounded_iff :
    (findInitialObjects 5 (withModules 1) 0).result = .ok 5 ∧
      (Bounded 5 (withModules 1) ↔ ¬ Short 5 (withModules 1)) :=
  ⟨rfl, bounded_iff (by decide) (by decide) (withModules 1)⟩

/-- With 1022 modules the data of the root task are written behind the table of `sys$mem_init`. -/
theorem withModules_overruns :
    ¬ ∀ max kip, 1 ≤ max → max < 2 ^ 32 → Bounded max kip := by
  intro h
  have hbounded := h numMiObjects (withModules 1022) (by decide) (by decide)
  have hmodules : objectsOf (List.replicate 1022 (.module 0x60000 0x1000)) = 1022 := by
    rw [objectsOf, List.map_replicate, List.sum_replicate]
    rfl
  have hshort : Short numMiObjects (withModules 1022) := by
    refine ⟨fun m hm => absurd hm List.not_mem_nil, _, rfl, by decide, List.replicate 1022 (.module 0x60000 0x1000),
      .simpleExec 32 0x40000 0x3000 0x50000 0x1000, [], ?_, fun r hr => ?_, ?_, by decide⟩
    · have hlength : ((List.replicate 1022 (.module 0x60000 0x1000)) ++
          [.simpleExec 32 0x40000 0x3000 0x50000 0x1000] : List BootRec).length = 1023 := by
        rw [List.length_append, List.length_replicate]
        rfl
      exact List.take_of_length_le (hlength.le.trans (by rw [hlength]; decide))
    · rw [List.eq_of_mem_replicate hr]
      decide
    · rw [hmodules]
      rfl
  obtain ⟨w, hw, hindex⟩ := findInitialObjects_overruns (by decide) hshort
  exact absurd (hbounded.1 w hw) (by omega)

end FreeVMS.Boot.ObjectTable
