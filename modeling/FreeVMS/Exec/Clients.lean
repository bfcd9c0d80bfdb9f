import FreeVMS.Exec.Service
import Mathlib.Data.List.TakeWhile

/-!
# Programs

What a program sends to the root task, as `rtl$print` and `exit` make it, and what comes of several
programs that run at the same time.  Every message is a call, so that the messages of one thread arrive
in their order; between two of them those of other threads can arrive.
-/

namespace FreeVMS.Exec

open Alloc BTree Kernel Kernel.Access Thread Run

/-- The tag with a label, `t` typed and `u` untyped words. -/
def l4MsgTag (label t u : Nat) : Nat := label * 2 ^ 16 + t * 2 ^ 6 + u

/-- `MR1`; the other words do not matter to the root task. -/
def firstWord (w : Nat) : Nat → Nat := fun i => if i = 1 then w else 0

/-- The first word of `L4_StringItem`. -/
def l4StringItem (size : Nat) : Nat := size * 2 ^ 10

/-- `rtl$print`; `str` is what `rtl$sprint` makes. -/
def rtlPrint (tid : Nat) (str : List Nat) : List Message :=
  if str.length ≤ maxStringitemLength then
    [⟨tid, l4MsgTag syscallPrint 2 0, firstWord (l4StringItem str.length), str⟩]
  else []

/-- `exit`, of a program whose parent is the root task; `message` is what `rtl$sprint` makes of the
    message, if there is one. -/
def exit (tid v : Nat) (message : Option (List Nat)) : List Message :=
  ⟨tid, l4MsgTag syscallExitValue 0 1, firstWord v, []⟩ ::
    (match message with
    | some str => rtlPrint tid str
    | none => []) ++
    [⟨tid, l4MsgTag syscallKillThread 0 1, firstWord tid, []⟩]

/-- What a program does in `main`, as far as the root task sees it. -/
inductive Action where
  | print (str : List Nat)
  /-- an access to a page that is not mapped -/
  | access (addr rwx : Nat)

def Action.messages (tid : Nat) : Action → List Message
  | .print str => rtlPrint tid str
  | .access addr rwx => [⟨tid, l4Pagefault + rwx * 2 ^ 16 + 2, firstWord addr, []⟩]

/-- A program that runs in the thread `tid`. -/
structure Program where
  tid : Nat
  main : List Action
  value : Nat
  message : Option (List Nat)

/-- All that it sends. -/
def Program.messages (p : Program) : List Message :=
  p.main.flatMap (Action.messages p.tid) ++ exit p.tid p.value p.message

/-- The program prints no zeros, and uses memory that it has a capability for. -/
structure Program.Polite (p : Program) (s : System) : Prop where
  runs : ∃ d, ∃ t ∈ (s.pd d).threads, s.id t = p.tid
  prints : ∀ str, .print str ∈ p.main ∨ p.message = some str → 0 ∉ str
  accesses : ∀ addr rwx, .access addr rwx ∈ p.main → rwx < 2 ^ 4 ∧
    ∃ o, Granted s p.tid addr o ∧ SearchEnds s p.tid o

/-- The messages arrive in some order; those of each program in its own. -/
def Interleaved (ps : List Program) (ms : List Message) : Prop :=
  (∀ m ∈ ms, ∃ p ∈ ps, m.partner = p.tid) ∧
    ∀ p ∈ ps, ms.filter (fun m => m.partner = p.tid) = p.messages

/-- What the messages print: each its line, as much of it as `printf` prints. -/
def lines (ms : List Message) : List Nat :=
  (ms.filter fun m => l4Label m.tag = syscallPrint).flatMap fun m => (m.text ++ [10]).take (outbufSize - 1)

/-! ### One message -/

/-- A message that deletes its thread. -/
def Kills (m : Message) : Prop := l4Label m.tag = syscallKillThread

/-- A message that a polite program sends. -/
inductive Sent (s : System) : Message → Prop
  | print {tid : Nat} {str : List Nat} : 0 ∉ str → str.length ≤ maxStringitemLength →
      Sent s ⟨tid, l4MsgTag syscallPrint 2 0, firstWord (l4StringItem str.length), str⟩
  | access {tid addr rwx : Nat} {o : Memsection} : rwx < 2 ^ 4 → Granted s tid addr o →
      SearchEnds s tid o → Sent s ⟨tid, l4Pagefault + rwx * 2 ^ 16 + 2, firstWord addr, []⟩
  | exit {tid v : Nat} : Sent s ⟨tid, l4MsgTag syscallExitValue 0 1, firstWord v, []⟩
  | kill {tid : Nat} : Sent s ⟨tid, l4MsgTag syscallKillThread 0 1, firstWord tid, []⟩

/-- What the messages have done: the lines are printed, the threads that asked for it are deleted. -/
structure After (ms : List Message) (srv srv' : Server) : Prop where
  console : srv'.console = srv.console ++ lines ms
  threads : ∀ d t, t ∈ (srv'.system.pd d).threads ↔
    t ∈ (srv.system.pd d).threads ∧ ∀ m ∈ ms, Kills m → srv.system.id t ≠ m.partner
  id : srv'.system.id = srv.system.id
  objects : srv'.system.security.objects = srv.system.security.objects
  caps : SameCaps srv.system srv'.system

section

variable {k : Machine} {lo idBits : Nat} {srv srv' srv'' : Server} {m : Message} {ms ms' : List Message}
  {live : List (Nat × Nat)}

theorem SameCaps.trans {s s' s'' : System} (h : SameCaps s s') (h' : SameCaps s' s'') : SameCaps s s'' :=
  ⟨h'.links.trans h.links, h'.data.trans h.data, h'.obj.trans h.obj⟩

theorem lines_append : lines (ms ++ ms') = lines ms ++ lines ms' := by
  rw [lines, List.filter_append, List.flatMap_append]
  rfl

theorem After.trans (h : After ms srv srv') (h' : After ms' srv' srv'') :
    After (ms ++ ms') srv srv'' := by
  constructor
  case console => rw [h'.console, h.console, lines_append, List.append_assoc]
  case threads =>
    intro d t
    rw [h'.threads, h.threads, h.id, and_assoc]
    refine and_congr_right fun _ => ?_
    constructor
    · rintro ⟨h1, h2⟩ m hm hk
      rcases List.mem_append.mp hm with hm | hm
      · exact h1 m hm hk
      · exact h2 m hm hk
    · intro hall
      exact ⟨fun m hm => hall m (List.mem_append_left _ hm), fun m hm => hall m (List.mem_append_right _ hm)⟩
  case id => rw [h'.id, h.id]
  case objects => rw [h'.objects, h.objects]
  case caps => exact h.caps.trans h'.caps

/-- A message that deletes nothing changes nothing but the console. -/
theorem After.quiet {string : Nat → Nat} (hkill : ¬ Kills m) (hprint : l4Label m.tag ≠ syscallPrint) :
    After [m] srv { srv with string := string } := by
  constructor
  case console => simp [lines, hprint]
  case threads =>
    intro d t
    refine (and_iff_left fun m' hm' hk => ?_).symm
    obtain rfl := List.mem_singleton.mp hm'
    exact absurd hk hkill
  case id => rfl
  case objects => rfl
  case caps => exact ⟨rfl, rfl, rfl⟩

theorem label_msgTag {label t u : Nat} (h : t * 2 ^ 6 + u < 2 ^ 16) : l4Label (l4MsgTag label t u) = label := by
  rw [l4Label, l4MsgTag]
  omega

/-- What a thread has capabilities for is the same as long as it is not deleted. -/
theorem After.listsOf (h : After ms srv srv') {caller : Nat} {clists : List ClistInfo}
    (hno : ∀ m ∈ ms, Kills m → m.partner ≠ caller) :
    ListsOf srv'.system caller clists ↔ ListsOf srv.system caller clists := by
  constructor
  · rintro ⟨d, t, cells, ht, hid, hhangs, rfl⟩
    rw [h.caps.links] at hhangs
    rw [h.id] at hid
    exact ⟨d, t, cells, ((h.threads d t).mp ht).1, hid, hhangs, by rw [h.caps.data]⟩
  · rintro ⟨d, t, cells, ht, hid, hhangs, rfl⟩
    refine ⟨d, t, cells, (h.threads d t).mpr ⟨ht, fun m hm hk heq => ?_⟩, by rw [h.id, hid],
      by rw [h.caps.links]; exact hhangs, by rw [h.caps.data]⟩
    exact hno m hm hk (heq.symm.trans hid)

/-- The rest of what a program sends is still polite. -/
theorem Sent.after (h : After ms srv srv') {m' : Message} (hs : Sent srv.system m')
    (hno : ∀ m ∈ ms, Kills m → m.partner ≠ m'.partner) : Sent srv'.system m' := by
  cases hs with
  | print hzero hshort => exact .print hzero hshort
  | @access tid addr rwx o hrwx hgranted hends =>
    obtain ⟨hobject, hlies, clists, hclists, hgrants⟩ := hgranted
    refine .access (o := o) hrwx ⟨?_, ?_, clists, (h.listsOf hno).mpr hclists, ?_⟩ fun cl hcl => ?_
    · rw [h.objects]
      exact hobject
    · rw [h.objects]
      exact hlies
    · rw [h.caps.obj]
      exact hgrants
    · rw [h.caps.obj]
      exact hends cl ((h.listsOf hno).mp hcl)
  | exit => exact .exit
  | kill => exact .kill

/-- A string comes out as it was sent. -/
theorem printed_line {tid : Nat} {str : List Nat} (h : 0 ∉ str) :
    printed srv ⟨tid, l4MsgTag syscallPrint 2 0, firstWord (l4StringItem str.length), str⟩ =
      (str ++ [10]).take (outbufSize - 1) := by
  have hlength : l4StringLength (firstWord (l4StringItem str.length) 1) = str.length := by
    rw [firstWord, if_pos rfl, l4StringLength, l4StringItem, Nat.mul_div_cancel _ (Nat.two_pow_pos _)]
  have hstr : (List.range str.length).map (received srv.string str) = str := by
    refine List.ext_getElem (by simp) fun i h1 h2 => ?_
    simp [received, List.getD_eq_getElem?_getD, h2]
  have hall : str.takeWhile (fun c => c ≠ 0) = str :=
    List.takeWhile_eq_self_iff.mpr fun c hc => by simpa using ne_of_mem_of_not_mem hc h
  rw [printed, notice]
  simp only [hlength, hstr, hall]

/-- **One message.**  It is answered, and does what it says. -/
theorem step_sent (hm : k.m = 1) (hlo : 0 < lo) (h : Sound k lo idBits srv.system live)
    (hs : Sent srv.system m) (hon : ∃ d, ∃ t ∈ (srv.system.pd d).threads, srv.system.id t = m.partner) :
    ∃ n srv', (∀ fuel, n ≤ fuel → step k fuel (.message m) srv = .ok srv') ∧
      (∃ live', Sound k lo idBits srv'.system live') ∧ After [m] srv srv' := by
  cases hs with
  | @print tid str hzero hshort =>
    have hlabel : l4Label (l4MsgTag syscallPrint 2 0) = syscallPrint := label_msgTag (by decide)
    have hlength : l4StringLength (firstWord (l4StringItem str.length) 1) = str.length := by
      rw [firstWord, if_pos rfl, l4StringLength, l4StringItem, Nat.mul_div_cancel _ (Nat.two_pow_pos _)]
    refine ⟨0, { srv with
      string := Function.update (received srv.string str) str.length 0
      console := srv.console ++ (str ++ [10]).take (outbufSize - 1) }, fun fuel _ => ?_, ⟨live, h⟩, ?_⟩
    · rw [step, serve_print hshort (request_of_label hlabel (by decide)) hlabel (by rw [hlength]; exact hshort),
        printed_line hzero]
      simp only [hlength]
      rfl
    · constructor
      case console => simp [lines, hlabel]
      case threads =>
        intro d t
        refine (and_iff_left fun m' hm' hk => ?_).symm
        obtain rfl := List.mem_singleton.mp hm'
        rw [Kills, hlabel] at hk
        exact absurd hk (by decide)
      case id => rfl
      case objects => rfl
      case caps => exact ⟨rfl, rfl, rfl⟩
  | @access tid addr rwx o hrwx hgranted hends =>
    obtain ⟨hwell, v, hrings⟩ := id h
    obtain ⟨n, hn⟩ := pagefault_served (l4Pagefault + rwx * 2 ^ 16 + 2) hwell hrings hgranted
      hends
    have hp : l4Pagefault = 18446744073707454464 := rfl
    have hlarge : 2 ^ 47 ≤ l4Label (l4Pagefault + rwx * 2 ^ 16 + 2) := by
      rw [l4Label, hp]
      omega
    have hkill : ¬ Kills ⟨tid, l4Pagefault + rwx * 2 ^ 16 + 2, firstWord addr, []⟩ := by
      intro hk
      rw [Kills] at hk
      rw [hk] at hlarge
      exact absurd hlarge (by decide)
    have hprint : l4Label (l4Pagefault + rwx * 2 ^ 16 + 2) ≠ syscallPrint := by
      intro hk
      rw [hk] at hlarge
      exact absurd hlarge (by decide)
    have hfault : l4Request (l4Pagefault + rwx * 2 ^ 16 + 2) = l4Pagefault := by
      rw [l4Request, hp]
      omega
    refine ⟨n, { srv with string := received srv.string [] }, fun fuel hfuel => ?_, ⟨live, h⟩,
      After.quiet hkill hprint⟩
    have hserve : serve k fuel ⟨tid, l4Pagefault + rwx * 2 ^ 16 + 2, firstWord addr, []⟩ srv = _ :=
      serve_fault (Nat.zero_le _) hfault
    simp only [show firstWord addr 1 = addr from rfl, hn fuel hfuel] at hserve
    rw [step, hserve]
    rfl
  | @exit tid v =>
    have hlabel : l4Label (l4MsgTag syscallExitValue 0 1) = syscallExitValue := label_msgTag (by decide)
    refine ⟨0, { srv with string := received srv.string [] }, fun fuel _ => ?_, ⟨live, h⟩,
      After.quiet (fun hk => ?_) ?_⟩
    · rw [step, serve_exit (Nat.zero_le _) (request_of_label hlabel (by decide)) hlabel]
      rfl
    · rw [Kills, hlabel] at hk
      exact absurd hk (by decide)
    · rw [hlabel]
      decide
  | @kill tid =>
    have hlabel : l4Label (l4MsgTag syscallKillThread 0 1) = syscallKillThread := label_msgTag (by decide)
    obtain ⟨d, t, ht, hid⟩ := hon
    rcases killThread_spec hm hlo h tid with ⟨thread, s', ⟨d', ht'⟩, hid', hrun, hremoved, hsound⟩ | ⟨hnone, -⟩
    · refine ⟨0, { srv with system := s', string := received srv.string [] }, fun fuel _ => ?_,
        ⟨_, hsound⟩, ?_⟩
      · have hserve : serve k fuel ⟨tid, l4MsgTag syscallKillThread 0 1, firstWord tid, []⟩ srv = _ :=
          serve_kill (Nat.zero_le _) (request_of_label hlabel (by decide)) hlabel
        simp only [show firstWord tid 1 = tid from rfl, hrun] at hserve
        rw [step, hserve]
        rfl
      · constructor
        case console =>
          have hprint : syscallKillThread ≠ syscallPrint := by decide
          simp [lines, hlabel, hprint]
        case threads =>
          intro d₁ t₁
          rw [hremoved.threads]
          refine and_congr_right fun ht₁ => ?_
          constructor
          · intro hne m hm _ heq
            obtain rfl := List.mem_singleton.mp hm
            have hlive₁ := ((h.1.listed d₁ t₁).mp ht₁).2
            have hlive := ((h.1.listed d' thread).mp ht').2
            exact hne (Prod.mk.inj (h.1.filed.id_inj hlive₁ hlive (heq.trans hid'.symm))).2
          · rintro hall rfl
            exact hall _ (List.mem_singleton_self _) hlabel hid'
        case id => exact hremoved.id
        case objects => exact hremoved.objects
        case caps => exact hremoved.caps
    · exact absurd hid (hnone d t ht)

/-! ### Many messages -/

/-- **A run.**  Messages of polite programs, none of which comes after the end of its thread. -/
theorem runs_sent (hm : k.m = 1) (hlo : 0 < lo) : ∀ {ms : List Message} {srv : Server},
    (∃ live, Sound k lo idBits srv.system live) → (∀ m ∈ ms, Sent srv.system m) →
    (∀ m ∈ ms, ∃ d, ∃ t ∈ (srv.system.pd d).threads, srv.system.id t = m.partner) →
    (ms.Pairwise fun m m' => Kills m → m.partner ≠ m'.partner) →
    ∃ n srv', (∀ fuel, n ≤ fuel → runs (step k fuel) (ms.map .message) srv = .ok srv') ∧
      (∃ live', Sound k lo idBits srv'.system live') ∧ After ms srv srv' := by
  intro ms
  induction ms with
  | nil =>
    intro srv h _ _ _
    refine ⟨0, srv, fun _ _ => rfl, h, ?_⟩
    exact ⟨(List.append_nil _).symm, fun d t => (and_iff_left fun _ hm => absurd hm List.not_mem_nil).symm,
      rfl, rfl, rfl, rfl, rfl⟩
  | cons m ms ih =>
    intro srv h hsent hon hlast
    obtain ⟨live, h⟩ := h
    obtain ⟨hhead, hlast⟩ := List.pairwise_cons.mp hlast
    obtain ⟨n, srv₁, hstep, hsound, hafter⟩ :=
      step_sent hm hlo h (hsent m List.mem_cons_self) (hon m List.mem_cons_self)
    have hno : ∀ m' ∈ ms, ∀ x ∈ [m], Kills x → x.partner ≠ m'.partner := by
      intro m' hm' x hx hk
      obtain rfl := List.mem_singleton.mp hx
      exact hhead m' hm' hk
    have hsent' : ∀ m' ∈ ms, Sent srv₁.system m' := fun m' hm' =>
      Sent.after hafter (hsent m' (List.mem_cons_of_mem _ hm')) (hno m' hm')
    have hon' : ∀ m' ∈ ms, ∃ d, ∃ t ∈ (srv₁.system.pd d).threads, srv₁.system.id t = m'.partner := by
      intro m' hm'
      obtain ⟨d, t, ht, hid⟩ := hon m' (List.mem_cons_of_mem _ hm')
      rw [hafter.id]
      refine ⟨d, t, (hafter.threads d t).mpr ⟨ht, fun x hx hk heq => ?_⟩, hid⟩
      exact hno m' hm' x hx hk (heq.symm.trans hid)
    obtain ⟨n', srv', hrun, hsound', hafter'⟩ := ih hsound hsent' hon' hlast
    refine ⟨max n n', srv', fun fuel hfuel => ?_, hsound', hafter.trans hafter'⟩
    rw [List.map_cons, runs, hstep fuel (le_of_max_le_left hfuel)]
    exact hrun fuel (le_of_max_le_right hfuel)

end

/-! ### Programs -/

section

variable {s : System} {p : Program} {m : Message} {tid : Nat} {str : List Nat}

theorem mem_rtlPrint (h : m ∈ rtlPrint tid str) : str.length ≤ maxStringitemLength ∧
    m = ⟨tid, l4MsgTag syscallPrint 2 0, firstWord (l4StringItem str.length), str⟩ := by
  rw [rtlPrint] at h
  split at h
  · rename_i hshort
    exact ⟨hshort, List.mem_singleton.mp h⟩
  · exact absurd h List.not_mem_nil

/-- The messages before the last one. -/
theorem Program.sends (p : Program) : ∃ init : List Message,
    p.messages = init ++ [⟨p.tid, l4MsgTag syscallKillThread 0 1, firstWord p.tid, []⟩] ∧
    ∀ m ∈ init, ¬ Kills m ∧ (p.Polite s → Sent s m) := by
  have hprint : ∀ str, (p.Polite s → 0 ∉ str) → ∀ m ∈ rtlPrint p.tid str,
      ¬ Kills m ∧ (p.Polite s → Sent s m) := by
    intro str hzero m hm
    obtain ⟨hshort, rfl⟩ := mem_rtlPrint hm
    refine ⟨fun hk => ?_, fun hp => .print (hzero hp) hshort⟩
    rw [Kills, label_msgTag (by decide)] at hk
    exact absurd hk (by decide)
  refine ⟨p.main.flatMap (Action.messages p.tid) ++
    ⟨p.tid, l4MsgTag syscallExitValue 0 1, firstWord p.value, []⟩ ::
      (match p.message with
      | some str => rtlPrint p.tid str
      | none => []), ?_, fun m hm => ?_⟩
  · exact (List.append_assoc _ _ _).symm
  rcases List.mem_append.mp hm with hmain | hrest
  · -- what `main` sends
    obtain ⟨a, ha, hm⟩ := List.mem_flatMap.mp hmain
    cases a with
    | print str => exact hprint str (fun hp => hp.prints str (.inl ha)) m hm
    | access addr rwx =>
      obtain rfl := List.mem_singleton.mp hm
      refine ⟨fun hk => ?_, fun hp => ?_⟩
      · have hp : l4Pagefault = 18446744073707454464 := rfl
        have hs : syscallKillThread = 5 := rfl
        rw [Kills, l4Label, hp, hs] at hk
        simp only at hk
        omega
      · obtain ⟨hrwx, o, hgranted, hends⟩ := hp.accesses addr rwx ha
        exact .access hrwx hgranted hends
  · rcases List.mem_cons.mp hrest with rfl | hm
    · refine ⟨fun hk => ?_, fun _ => .exit⟩
      rw [Kills, label_msgTag (by decide)] at hk
      exact absurd hk (by decide)
    · cases hmessage : p.message with
      | none =>
        rw [hmessage] at hm
        exact absurd hm List.not_mem_nil
      | some str =>
        rw [hmessage] at hm
        exact hprint str (fun hp => hp.prints str (.inr hmessage)) m hm

end

/-- Messages of polite programs, in any order. -/
theorem run_interleaved {k : Machine} {lo idBits fuel : Nat} {srv : Server} {ps : List Program}
    {ms : List Message} (hv : ValidOrder k.order) (hm : k.m = 1) (hbits : idBits < 64)
    (h : Reached k lo idBits fuel srv) (hpolite : ∀ p ∈ ps, p.Polite srv.system)
    (hms : Interleaved ps ms) :
    ∃ n srv', (∀ fuel, n ≤ fuel → runs (step k fuel) (ms.map .message) srv = .ok srv') ∧
      srv'.console = srv.console ++ lines ms ∧ Orderly k lo idBits srv'.system ∧
      ∀ d t, t ∈ (srv'.system.pd d).threads ↔
        t ∈ (srv.system.pd d).threads ∧ ∀ p ∈ ps, srv.system.id t ≠ p.tid := by
  obtain ⟨hlo, hsound⟩ := h.sound hv hm hbits
  obtain ⟨hfrom, horder⟩ := hms
  have hfilter : ∀ p ∈ ps, ∀ m, m ∈ ms ∧ m.partner = p.tid ↔ m ∈ p.messages := by
    intro p hp m
    rw [← horder p hp, List.mem_filter, decide_eq_true_eq]
  have hsent : ∀ m ∈ ms, Sent srv.system m := by
    intro m hm
    obtain ⟨p, hp, hpartner⟩ := hfrom m hm
    obtain ⟨init, hinit, hall⟩ := p.sends (s := srv.system)
    have hmem := (hfilter p hp m).mp ⟨hm, hpartner⟩
    rw [hinit] at hmem
    rcases List.mem_append.mp hmem with hmem | hmem
    · exact (hall m hmem).2 (hpolite p hp)
    · obtain rfl := List.mem_singleton.mp hmem
      exact .kill
  have hon : ∀ m ∈ ms, ∃ d, ∃ t ∈ (srv.system.pd d).threads, srv.system.id t = m.partner := by
    intro m hm
    obtain ⟨p, hp, hpartner⟩ := hfrom m hm
    rw [hpartner]
    exact (hpolite p hp).runs
  have hlast : ms.Pairwise fun m m' => Kills m → m.partner ≠ m'.partner := by
    refine List.pairwise_iff_forall_sublist.mpr fun {m m'} hsub hk heq => ?_
    obtain ⟨p, hp, hpartner⟩ := hfrom m (hsub.subset List.mem_cons_self)
    -- both are messages of `p`, and the first is not its last one
    have hboth : [m, m'].Sublist p.messages := by
      rw [← horder p hp]
      have hkept := hsub.filter fun m => decide (m.partner = p.tid)
      rwa [List.filter_eq_self.mpr] at hkept
      intro x hx
      rcases List.mem_pair.mp hx with rfl | rfl
      · simpa using hpartner
      · simpa using heq.symm.trans hpartner
    obtain ⟨init, hinit, hall⟩ := p.sends (s := srv.system)
    have hpair : p.messages.Pairwise fun m _ => ¬ Kills m := by
      rw [hinit, List.pairwise_append]
      refine ⟨?_, List.pairwise_singleton _ _, fun x hx _ _ => (hall x hx).1⟩
      exact List.pairwise_of_forall_mem_list fun x hx _ _ => (hall x hx).1
    exact List.pairwise_iff_forall_sublist.mp hpair hboth hk
  obtain ⟨n, srv', hrun, hsound', hafter⟩ := runs_sent hm hlo hsound hsent hon hlast
  refine ⟨n, srv', hrun, hafter.console, hsound'.choose_spec.1.orderly, fun d t => ?_⟩
  rw [hafter.threads]
  refine and_congr_right fun _ => ?_
  constructor
  · intro hall p hp
    obtain ⟨init, hinit, -⟩ := p.sends (s := srv.system)
    have hmem : (⟨p.tid, l4MsgTag syscallKillThread 0 1, firstWord p.tid, []⟩ : Message) ∈ p.messages := by
      rw [hinit]
      exact List.mem_append_right _ (List.mem_singleton_self _)
    exact hall _ ((hfilter p hp _).mpr hmem).1 (label_msgTag (by decide))
  · intro hall m hm _ heq
    obtain ⟨p, hp, hpartner⟩ := hfrom m hm
    exact hall p hp (heq.trans hpartner)

/-- It prints a line, writes to its memory, and says goodbye. -/
def first : Program := ⟨8589934593, [.print [111, 107], .access 0x500123 6], 0, some [98, 121, 101]⟩

/-- It ends at once. -/
def second : Program := ⟨12884901889, [], 1, none⟩

def mixed : List Message :=
  rtlPrint first.tid [111, 107] ++ (second.messages.take 1) ++
    Action.messages first.tid (.access 0x500123 6) ++ (exit first.tid 0 (some [98, 121, 101])).take 1 ++
    second.messages.drop 1 ++ (exit first.tid 0 (some [98, 121, 101])).drop 1

/-- The session with a second thread, in which both can run. -/
theorem mixed_ready : ∃ srv, runs (step amd64 50)
      (session ++ [.call (.thread 5 (some 0xb100) 0xa100 ⟨true, true, .done⟩)]) quiet = .ok srv ∧
    Reached amd64 2 17 50 srv ∧ srv.console = [] ∧ (∀ p ∈ [first, second], p.Polite srv.system) ∧
    Interleaved [first, second] mixed := by
  obtain ⟨srv₁, hrun₁, hreached₁⟩ := session_reached
  have heval : (runs (step amd64 50)
      (session ++ [.call (.thread 5 (some 0xb100) 0xa100 ⟨true, true, .done⟩)]) quiet).toOption.any
        (fun srv => 0xb000 ∈ (srv.system.pd 5).threads ∧ 0xb100 ∈ (srv.system.pd 5).threads ∧
          srv.system.id 0xb000 = 8589934593 ∧ srv.system.id 0xb100 = 12884901889 ∧
          srv.console = [] ∧ (serve amd64 50 badAccess srv).isOk = true) = true := by
    decide +kernel
  have hrun : runs (step amd64 50)
      (session ++ [.call (.thread 5 (some 0xb100) 0xa100 ⟨true, true, .done⟩)]) quiet =
        step amd64 50 (.call (.thread 5 (some 0xb100) 0xa100 ⟨true, true, .done⟩)) srv₁ := by
    rw [runs_append, hrun₁]
    simp only [runs]
    cases step amd64 50 (.call (.thread 5 (some 0xb100) 0xa100 ⟨true, true, .done⟩)) srv₁ <;> rfl
  rw [hrun] at heval ⊢
  cases hstep : step amd64 50 (.call (.thread 5 (some 0xb100) 0xa100 ⟨true, true, .done⟩)) srv₁ with
  | error e =>
    rw [hstep] at heval
    cases heval
  | ok srv =>
    rw [hstep] at heval
    obtain ⟨hfirst, hsecond, hid, hid', hconsole, hok⟩ := of_decide_eq_true heval
    have hlegal : (Input.call (.thread 5 (some 0xb100) 0xa100 ⟨true, true, .done⟩)).Legal amd64 2 17 srv₁ :=
      second_legal hrun₁ hreached₁
    have hreached : Reached amd64 2 17 50 srv := hreached₁.more hlegal hstep
    obtain ⟨-, live, hsound⟩ := hreached.sound deployed_order rfl (by decide)
    have haccess : ∃ o, Granted srv.system 8589934593 0x500123 o ∧ SearchEnds srv.system 8589934593 o := by
      cases hserve : serve amd64 50 badAccess srv with
      | error e =>
        rw [hserve] at hok
        cases hok
      | ok r =>
        have hkind := (served_of_ok ⟨by decide, by decide⟩ rfl (by decide) hsound hserve).2
        rwa [if_pos (by decide)] at hkind
    refine ⟨srv, rfl, hreached, hconsole, fun p hp => ?_, ?_, ?_⟩
    · rcases List.mem_pair.mp hp with rfl | rfl
      · refine ⟨⟨5, _, hfirst, hid⟩, fun str hstr => ?_, fun addr rwx ha => ?_⟩
        · have hcases : str = [111, 107] ∨ str = [98, 121, 101] := by
            simpa [first, eq_comm] using hstr
          rcases hcases with rfl | rfl
          · decide
          · decide
        · obtain ⟨rfl, rfl⟩ : addr = 0x500123 ∧ rwx = 6 := by
            simpa [first] using ha
          exact ⟨by decide, haccess⟩
      · refine ⟨⟨5, _, hsecond, hid'⟩, fun str hstr => ?_, fun addr rwx ha => ?_⟩
        · simp [second] at hstr
        · simp [second] at ha
    · have hpartner : ∀ m ∈ mixed, m.partner = first.tid ∨ m.partner = second.tid := by decide
      intro m hm
      rcases hpartner m hm with h | h
      · exact ⟨first, List.mem_cons_self, h⟩
      · exact ⟨second, List.mem_cons_of_mem _ List.mem_cons_self, h⟩
    · intro p hp
      rcases List.mem_pair.mp hp with rfl | rfl
      · rfl
      · rfl

end FreeVMS.Exec
