import FreeVMS.Alloc.Chunk
import FreeVMS.Boot.Regions
import FreeVMS.Kernel.Capability
import FreeVMS.Thread.Ids
import FreeVMS.Thread.Utcb

/-!
# Protection domains and their threads

`sys$pd_create`, `sys$pd_create_thread` and `sys$thread_delete` as a whole: the free list of thread
numbers, the table of threads, the free lists of UTCB slots, the lists of threads and the memsections
of the UTCB areas are one state here.  What the heap, the allocator of virtual memory and the kernel
answer comes with each call.

A protection domain is known by its number; 0 is `freevms_pd`.  A thread is known by the address of
its `struct thread`.
-/

namespace FreeVMS.Exec

open Alloc BTree Kernel Kernel.Access Thread

inductive Fault where
  /-- `PANIC` -/
  | panic
  /-- a null pointer is followed -/
  | null
  /-- a loop does not end -/
  | diverge
  /-- a buffer is written behind its end -/
  | overrun
  /-- a fault of the table of threads -/
  | table (e : Chained.Fault)
  /-- a fault of a free list of UTCB slots -/
  | bits (e : Alloc.Fault)
  /-- a fault of the security check -/
  | access (e : Access.Fault)
deriving DecidableEq, Repr

/-- What the kernel and the build fix: `vms$min_pagebits`, `BT_ORDER`, the address of
    `freevms_pd.memsections`, and the geometry of UTCBs, `a` and `m` of `UtcbAreaInfo`.  The UTCBs of
    256 threads have room in an address space. -/
structure Machine where
  bits : Nat
  order : Nat
  list : Nat
  a : Nat
  m : Nat
  multiple : 1 ≤ m
  small : m * 2 ^ a * 256 + 2 ^ bits < 2 ^ 63

/-- `utcb_size`; `utcb_size_log2` is `a`. -/
def Machine.utcbSize (k : Machine) : Nat := k.m * 2 ^ k.a

/-- `struct pd`, without the lists of memsections and of capabilities, which hang on its number. -/
structure Domain where
  state : PdState
  pds : List Nat
  threads : List Nat
  localThreadno : Bfl
  utcbMemsection : Option Memsection
  utcbBase : Nat
  utcbArea : Fpage

/-- The table of threads with `thread->owner`, the object table and the lists of capabilities; the
    free list `thread_list`; the other fields of `struct thread`; the protection domains. -/
structure System where
  security : Security
  threadList : List Range
  id : Nat → Nat
  utcb : Nat → Nat
  eas : Nat → Nat
  pd : Nat → Domain

/-- `JOBCTL$MAX_THREADS_PER_APD` -/
def maxThreadsPerApd : Int := 256

/-- What the kernel answers to the last `L4_ThreadControl` of `sys$thread_setup`. -/
inductive Activation where
  | done
  | noMem
  | error
deriving DecidableEq, Repr

/-- What it answers to the first one, to `L4_SpaceControl`, and to the last one. -/
structure L4Answers where
  control : Bool
  space : Bool
  activate : Activation
deriving DecidableEq, Repr

/-- A domain is changed. -/
def System.setPd (s : System) (d : Nat) (f : Domain → Domain) : System :=
  { s with pd := Function.update s.pd d (f (s.pd d)) }

/-- The object table is changed. -/
def System.setObjects (s : System) (objects : Table) : System :=
  { s with security := { s.security with objects := objects } }

/-- The state with another table and another free list. -/
def System.withThreads (s : System) (table : Chained.HashMem) (list : List Range) : System :=
  { s with security := { s.security with threads := table }, threadList := list }

/-- `thread->id = id` -/
def System.setId (s : System) (thread id : Nat) : System :=
  { s with id := Function.update s.id thread id }

/-- `thread->eas = eas` -/
def System.setEas (s : System) (thread eas : Nat) : System :=
  { s with eas := Function.update s.eas thread eas }

/-! ### Threads -/

/-- `sys$thread_alloc`; `entry` is what `sys$alloc` answers for the new entry of the table. -/
def threadAlloc (thread entry : Nat) (s : System) : Except Fault (Int × System) :=
  let r := rflAlloc s.threadList
  let threadNo := asInt r.1
  if threadNo = -1 then .ok (1, s.withThreads s.security.threads r.2)
  else
    let id := l4GlobalId threadNo 1
    match Chained.hashLookup hashHash s.security.threads id with
    | .error e => .error (.table e)
    | .ok found =>
        if found ≠ 0 then .error .panic
        else
          -- the return value of `hash_insert` is not looked at
          match Chained.hashInsert hashHash s.security.threads id thread entry with
          | .error e => .error (.table e)
          | .ok (t, _) => .ok (0, (s.withThreads t r.2).setId thread id)

/-- `sys$thread_free` -/
def threadFree (id : Nat) (s : System) : Except Fault System :=
  match Chained.hashRemove hashHash s.security.threads id with
  | .error e => .error (.table e)
  | .ok t => .ok (s.withThreads t (rflFree s.threadList (l4ThreadNo id)).2)

/-- The end of `sys$thread_setup`: the requests to the kernel. -/
def threadActivate (self : Nat) (l4 : L4Answers) (s : System) : Except Fault (Int × System) :=
  let pd := s.security.owner self
  if l4.control = false then .error .panic
  else if (s.pd pd).state = .empty ∧ l4.space = false then .error .panic
  else if (s.pd pd).state = .suspended then
    .ok (1, s.setPd pd fun d => { d with state := .active })
  else
    match l4.activate with
    | .done => .ok (0, s.setPd pd fun d => { d with state := .active })
    | .noMem => (threadFree (s.id self) s).map fun s => (1, s)
    | .error => .error .panic

/-- `sys$thread_setup` -/
def threadSetup (self entry : Nat) (l4 : L4Answers) (s : System) : Except Fault (Int × System) :=
  if (s.pd (s.security.owner self)).state = .suspended then threadActivate self l4 s
  else
    match threadAlloc self entry (s.setEas self 0) with
    | .error e => .error e
    | .ok (r, s) => if r ≠ 0 then .ok (1, s) else threadActivate self l4 s

/-- `sys$thread_list_delete`, for a thread of the domain `d`. -/
def System.threadListDelete (s : System) (d thread : Nat) : System :=
  s.setPd d fun d => { d with threads := d.threads.filter fun t => t ≠ thread }

/-- `sys$bfl_free`, for `local_threadno` of the domain `d`. -/
def System.bflFree (s : System) (d val : Nat) : Except Fault System :=
  match Thread.bflFree (s.pd d).localThreadno val with
  | .error e => .error (.bits e)
  | .ok bfl => .ok (s.setPd d fun d => { d with localThreadno := bfl })

/-- `sys$pd_create_thread` from the call of `sys$thread_setup` on. -/
def pdFinishThread (self thread localTid entry : Nat) (l4 : L4Answers) (s : System) :
    Except Fault (Option Nat × System) :=
  match threadSetup thread entry l4 s with
  | .error e => .error e
  | .ok (r, s) =>
      if r ≠ 0 then
        if (s.pd self).state ≠ .suspended then
          (s.bflFree self localTid).map fun s => (none, s.threadListDelete self thread)
        else .ok (none, s)
      else .ok (some thread, s.setPd self fun d => { d with state := .active })

/-- A domain with a thread that is new, and its owner and its slot. -/
def System.place (s : System) (d thread utcb : Nat) : System :=
  { s with
    security := { s.security with owner := Function.update s.security.owner thread d }
    utcb := Function.update s.utcb thread utcb }

section Code

variable (k : Machine)

/-- `sys$pd_create_thread`; nothing for `NULL`.  `node` is what `sys$alloc` answers for the new
    thread.  The priority is only passed on to the kernel. -/
def pdCreateThread (self : Nat) (node : Option Nat) (entry : Nat) (l4 : L4Answers) (s : System) :
    Except Fault (Option Nat × System) :=
  if (s.pd self).state = .suspended then
    match (s.pd self).threads with
    | [] => .error .null
    | thread :: _ => pdFinishThread self thread 0 entry l4 s
  else
    match node with
    | none => .ok (none, s)
    | some thread =>
        let s := s.setPd self fun d => { d with threads := d.threads ++ [thread] }
        let r := bflAlloc (s.pd self).localThreadno
        let s := s.setPd self fun d => { d with localThreadno := r.2 }
        match r.1 with
        | none => .ok (none, s.threadListDelete self thread)
        | some localTid =>
            pdFinishThread self thread localTid entry l4
              (s.place self thread
                (wordAdd (s.pd self).utcbBase (k.utcbSize * localTid % wordSize)))

/-- `sys$thread_delete`.  No session is ever made, so that the loops over the sessions of the thread
    end at once. -/
def threadDelete (thread : Nat) (s : System) : Except Fault System :=
  if thread = 0 then .error .null
  else
    let pd := s.security.owner thread
    match threadFree (s.id thread) s with
    | .error e => .error e
    | .ok s' =>
        if s.eas thread = 0 then
          (s'.bflFree pd (wordShr (wordSub (s.utcb thread) (s.pd pd).utcbBase) k.a)).map fun s =>
            s.threadListDelete pd thread
        else .ok (s'.threadListDelete pd thread)

/-! ### Protection domains -/

/-- `sys$pd_setup`, up to the lists that are empty already. -/
def pdSetup (new : Nat) (maxThreads : Nat) (s : System) : Except Fault System :=
  match bflNew maxThreads with
  | .error e => .error (.bits e)
  | .ok bfl => .ok (s.setPd new fun d =>
      { d with state := .empty, pds := [], threads := [], localThreadno := bfl })

/-- What `sys$pd_create_memsection` does to the object table and the lists when there is memory for
    `o`, for the domain `d`; whether it returns the memsection. -/
def pdCreateMemsection (d : Nat) (o : Memsection) (s : System) : Except Fault (Bool × System) :=
  match objtableInsert k.order s.security.objects o with
  | none => .error .diverge
  | some (r, t, pool) =>
      let objects := { s.security.objects with objtable := t, pool := pool }
      if r = 0 then
        .ok (true, s.setObjects (objects.append (if objects.initialized then .pd d else .internal) o))
      else .ok (false, s.setObjects objects)

/-- The size of the memsection that `sys$setup_utcb_area` asks for. -/
def utcbSectionSize (threads : Nat) : Option Nat :=
  utcbFpageSize (Boot.pageRoundUp (k.utcbSize * threads % wordSize) (2 ^ k.bits)) 64 1

/-- `sys$setup_utcb_area`; `area` is the memory that `sys$pd_create_memsection` finds. -/
def setupUtcbArea (self threads : Nat) (area : Option Memsection) (s : System) :
    Except Fault (Option Memsection × System) :=
  match utcbSectionSize k threads with
  | none => .error .diverge
  | some fpageSize =>
      match area with
      | none => .ok (none, s)
      | some o =>
          match pdCreateMemsection k self o s with
          | .error e => .error e
          | .ok (false, s) => .ok (none, s)
          | .ok (true, s) =>
              if o.base % fpageSize ≠ 0 then .ok (none, s)
              else
                let size := Boot.pageRoundUp (k.utcbSize * threads % wordSize) (2 ^ k.bits)
                .ok (some o, s.setPd self fun d =>
                  { d with utcbBase := o.base, utcbArea := l4Fpage o.base size })

/-- `sys$pd_create`; nothing for `NULL`.  `node` is what `sys$alloc` answers for the new domain. -/
def pdCreate (self : Option Nat) (maxThreads : Int) (node : Option Nat) (area : Option Memsection)
    (s : System) : Except Fault (Option Nat × System) :=
  if maxThreads > maxThreadsPerApd then .ok (none, s)
  else
    match self with
    | none => .ok (none, s)
    | some self =>
        let threads := ((if maxThreads = 0 then maxThreadsPerApd else maxThreads) % wordSize).toNat
        match node with
        | none => .ok (none, s)
        | some new =>
            match pdSetup new threads (s.setPd self fun d => { d with pds := d.pds ++ [new] }) with
            | .error e => .error e
            | .ok s =>
                match setupUtcbArea k new threads area s with
                | .error e => .error e
                | .ok (o, s) =>
                    let s := s.setPd new fun d => { d with utcbMemsection := o }
                    .ok (if o = none then none else some new, s)

end Code

end FreeVMS.Exec
