import FreeVMS.Exec.Domains

/-!
# The loop of the executive

`sys$loop` waits for messages: page faults, which `sys$pagefault` answers with the page if the thread
has a capability for the memsection, and three system calls.  A message that it does not understand, or
a page fault that it must not answer, stops it.

What a run is made of are messages, in any order and from anyone, and the calls that make memsections,
domains and threads and hand out capabilities.
-/

namespace FreeVMS.Exec

open Alloc BTree Kernel Kernel.Access Thread

/-- A message as `L4_Wait` and `L4_ReplyWait` return it: the sender, the tag, the words behind the tag,
    and what the kernel has written into `string`. -/
structure Message where
  partner : Nat
  tag : Nat
  mr : Nat → Nat
  text : List Nat

/-- `L4_MapItem_t` -/
structure MapItem where
  sndFpage : Fpage
  sndBase : Nat
deriving DecidableEq, Repr

inductive Reply where
  | map (item : MapItem)
  | word (w : Nat)
  | silent
deriving DecidableEq, Repr

/-- The state, the buffer `string`, and the characters that have been printed. -/
structure Server where
  system : System
  string : Nat → Nat
  console : List Nat

/-- `tag.raw & L4_REQUEST_MASK`, which clears the lower 20 bits. -/
def l4Request (tag : Nat) : Nat := tag / 2 ^ 20 * 2 ^ 20

/-- `L4_PAGEFAULT` -/
def l4Pagefault : Nat := 2 ^ 64 - 2 * 2 ^ 20

/-- `L4_Label` -/
def l4Label (tag : Nat) : Nat := tag / 2 ^ 16

/-- `string_item.X.string_length`, of the first word of the item. -/
def l4StringLength (item : Nat) : Nat := item / 2 ^ 10

/-- `L4_Set_Rights` -/
def l4SetRights (f : Fpage) (rwx : Nat) : Fpage := ⟨f.raw / 2 ^ 3 * 2 ^ 3 + rwx % 2 ^ 3⟩

/-- `L4_Rights` -/
def l4Rights (f : Fpage) : Nat := f.raw % 2 ^ 3

/-- `SYSCALL$PRINT` -/
def syscallPrint : Nat := 0b1000

/-- `SYSCALL$EXIT_VALUE` -/
def syscallExitValue : Nat := 0b10000

/-- `SYSCALL$KILL_THREAD` -/
def syscallKillThread : Nat := 0b101

/-- `MAX_STRINGITEM_LENGTH` -/
def maxStringitemLength : Nat := 4096

/-- The size of `outbuf` in `printf`. -/
def outbufSize : Nat := 256

/-- `notice("%s\n", string)`: the line is cut where `outbuf` is full. -/
def notice (string : Nat → Nat) (length : Nat) : List Nat :=
  (((List.range length).map string).takeWhile (fun c => c ≠ 0) ++ [10]).take (outbufSize - 1)

/-- `string` after the kernel has written to it. -/
def received (string : Nat → Nat) (text : List Nat) : Nat → Nat := fun i => text.getD i (string i)

section Code

variable (k : Machine) (fuel : Nat)

/-- The map item of the answer to a page fault. -/
def pageMapItem (addr tag : Nat) : MapItem :=
  let priv := tag / 2 ^ 16 % 2 ^ 4
  let fpage := l4SetRights (l4Fpage (Boot.pageRoundDown addr (2 ^ k.bits)) (2 ^ k.bits)) priv
  ⟨fpage, l4Address fpage⟩

/-- `sys$pagefault` -/
def pagefault (caller addr tag : Nat) (s : System) : Except Fault MapItem :=
  match objtableLookup s.security.objects addr with
  | none => .error .diverge
  | some none => .error .panic
  | some (some memsection) =>
      match secCheck fuel s.security caller memsection.addr with
      | .error e => .error (.access e)
      | .ok r =>
          if r = 0 then .ok (pageMapItem k addr tag) else .error .panic

/-- `sys$thread_delete(sys$thread_lookup(tid))` -/
def killThread (tid : Nat) (s : System) : Except Fault System :=
  match threadLookup s.security tid with
  | .error e => .error (.access e)
  | .ok thread => threadDelete k thread s

/-- One round of `sys$loop`. -/
def serve (m : Message) (s : Server) : Except Fault (Reply × Server) :=
  if m.text.length > maxStringitemLength then .error .overrun
  else
    let s := { s with string := received s.string m.text }
    if l4Request m.tag = l4Pagefault then
      (pagefault k fuel m.partner (m.mr 1) m.tag s.system).map fun item => (.map item, s)
    else if l4Label m.tag = syscallPrint then
      let length := l4StringLength (m.mr 1)
      if length > maxStringitemLength then .error .overrun
      else
        let s := { s with string := Function.update s.string length 0 }
        .ok (.word 0, { s with console := s.console ++ notice s.string length })
    else if l4Label m.tag = syscallExitValue then .ok (.word 0, s)
    else if l4Label m.tag = syscallKillThread then
      (killThread k (m.mr 1) s.system).map fun t => (.silent, { s with system := t })
    else .error .panic

/-- A call of the executive itself. -/
inductive Call where
  /-- a memsection or a pool is made, or the object table set up -/
  | table (c : TableCall)
  /-- `sys$pd_create` -/
  | domain (self : Option Nat) (maxThreads : Int) (node : Option Nat) (area : Option Memsection)
  /-- `sys$pd_create_thread` -/
  | thread (self : Nat) (node : Option Nat) (entry : Nat) (l4 : L4Answers)
  /-- `sys$pd_add_clist` -/
  | clist (pd clist p : Nat)
  /-- a capability is written into an array -/
  | capability (clist i obj : Nat)

def callStep (c : Call) (s : System) : Except Fault System :=
  match c with
  | .table c =>
      match tableStep k.order k.list c s.security.objects with
      | .error _ => .error .diverge
      | .ok objects => .ok (s.setObjects objects)
  | .domain self maxThreads node area => (pdCreate k self maxThreads node area s).map Prod.snd
  | .thread self node entry l4 => (pdCreateThread k self node entry l4 s).map Prod.snd
  | .clist pd clist p =>
      match pdAddClist s.security pd clist p with
      | .error e => .error (.access e)
      | .ok (security, _) => .ok { s with security := security }
  | .capability clist i obj => .ok { s with
      security := { s.security with
        obj := Function.update s.security.obj clist (Function.update (s.security.obj clist) i obj) } }

/-- What happens: a call, or a message arrives. -/
inductive Input where
  | call (c : Call)
  | message (m : Message)

def step (i : Input) (s : Server) : Except Fault Server :=
  match i with
  | .call c => (callStep k c s.system).map fun t => { s with system := t }
  | .message m => (serve k fuel m s).map Prod.snd

end Code

end FreeVMS.Exec
