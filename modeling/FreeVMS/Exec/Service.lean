import FreeVMS.Exec.Lifecycle

/-!
# What the loop answers

In every state that a run reaches: which messages are answered, who gets a page, what a new thread is,
and what a thread that has been deleted can still do.
-/

namespace FreeVMS.Exec

open Alloc BTree Kernel Kernel.Access Thread Run

/-- What `SYSCALL$PRINT` prints. -/
def printed (srv : Server) (m : Message) : List Nat :=
  notice (received srv.string m.text) (l4StringLength (m.mr 1))

/-- The conditions for an answer: the string fits into its buffer, a page fault is that of a thread with
    a capability which the search finds, and the thread to be deleted exists. -/
def Served (srv : Server) (m : Message) : Prop :=
  m.text.length ≤ maxStringitemLength ∧
    if l4Request m.tag = l4Pagefault then
      ∃ o, Granted srv.system m.partner (m.mr 1) o ∧ SearchEnds srv.system m.partner o
    else if l4Label m.tag = syscallPrint then
      l4StringLength (m.mr 1) ≤ maxStringitemLength
    else if l4Label m.tag = syscallExitValue then True
    else l4Label m.tag = syscallKillThread ∧
      ∃ d, ∃ t ∈ (srv.system.pd d).threads, srv.system.id t = m.mr 1

/-- A reply, as `serve` gives it with enough fuel. -/
def Answers (k : Machine) (srv : Server) (m : Message) (r : Reply × Server) : Prop :=
  ∃ n, ∀ fuel, n ≤ fuel → serve k fuel m srv = .ok r

section

variable {k : Machine} {lo idBits fuel : Nat} {srv : Server} {m : Message} {live : List (Nat × Nat)}

/-- `string` up to its length is what has been received. -/
theorem notice_received {string : Nat → Nat} {length : Nat} :
    notice (Function.update string length 0) length = notice string length := by
  have hmap : (List.range length).map (Function.update string length 0) =
      (List.range length).map string :=
    List.map_congr_left fun i hi => Function.update_of_ne (List.mem_range.mp hi).ne _ _
  rw [notice, notice, hmap]

/-! ### The kinds of messages -/

theorem serve_fault (htext : m.text.length ≤ maxStringitemLength)
    (hfault : l4Request m.tag = l4Pagefault) :
    serve k fuel m srv = (pagefault k fuel m.partner (m.mr 1) m.tag srv.system).map fun item =>
      (.map item, { srv with string := received srv.string m.text }) := by
  rw [serve, if_neg (Nat.not_lt.mpr htext)]
  exact if_pos hfault

theorem serve_print (htext : m.text.length ≤ maxStringitemLength)
    (hfault : l4Request m.tag ≠ l4Pagefault) (hprint : l4Label m.tag = syscallPrint)
    (hlength : l4StringLength (m.mr 1) ≤ maxStringitemLength) :
    serve k fuel m srv = .ok (.word 0, { srv with
      string := Function.update (received srv.string m.text) (l4StringLength (m.mr 1)) 0
      console := srv.console ++ printed srv m }) := by
  rw [serve, if_neg (Nat.not_lt.mpr htext)]
  simp only [if_neg hfault, if_pos hprint, if_neg (Nat.not_lt.mpr hlength), notice_received]
  rw [printed]

theorem serve_exit (htext : m.text.length ≤ maxStringitemLength)
    (hfault : l4Request m.tag ≠ l4Pagefault) (hexit : l4Label m.tag = syscallExitValue) :
    serve k fuel m srv = .ok (.word 0, { srv with string := received srv.string m.text }) := by
  have hprint : l4Label m.tag ≠ syscallPrint := by
    rw [hexit]
    decide
  rw [serve, if_neg (Nat.not_lt.mpr htext)]
  simp only [if_neg hfault, if_neg hprint, if_pos hexit]

theorem serve_kill (htext : m.text.length ≤ maxStringitemLength)
    (hfault : l4Request m.tag ≠ l4Pagefault) (hkill : l4Label m.tag = syscallKillThread) :
    serve k fuel m srv = (killThread k (m.mr 1) srv.system).map fun t =>
      (.silent, { srv with system := t, string := received srv.string m.text }) := by
  have hprint : l4Label m.tag ≠ syscallPrint := by
    rw [hkill]
    decide
  have hexit : l4Label m.tag ≠ syscallExitValue := by
    rw [hkill]
    decide
  rw [serve, if_neg (Nat.not_lt.mpr htext)]
  simp only [if_neg hfault, if_neg hprint, if_neg hexit, if_pos hkill]

/-- A message with one of the labels is not a page fault. -/
theorem request_of_label {tag label : Nat} (h : l4Label tag = label) (hlabel : label < 2 ^ 47) :
    l4Request tag ≠ l4Pagefault := by
  have hp : l4Pagefault = 18446744073707454464 := rfl
  rw [l4Label] at h
  rw [l4Request, hp]
  omega

/-! ### Who is answered -/

/-- The answer to a message that meets the conditions. -/
theorem answers_of_served (hm : k.m = 1) (hlo : 0 < lo) (h : Sound k lo idBits srv.system live)
    (hserved : Served srv m) : ∃ r, Answers k srv m r := by
  obtain ⟨htext, hkind⟩ := hserved
  by_cases hfault : l4Request m.tag = l4Pagefault
  · rw [if_pos hfault] at hkind
    obtain ⟨o, hgranted, hends⟩ := hkind
    obtain ⟨hwell, v, hrings⟩ := h
    obtain ⟨n, hn⟩ := pagefault_served m.tag hwell hrings hgranted hends
    refine ⟨(.map (pageMapItem k (m.mr 1) m.tag), { srv with string := received srv.string m.text }), n,
      fun fuel hfuel => ?_⟩
    rw [serve_fault htext hfault, hn fuel hfuel]
    rfl
  rw [if_neg hfault] at hkind
  by_cases hprint : l4Label m.tag = syscallPrint
  · rw [if_pos hprint] at hkind
    exact ⟨_, 0, fun fuel _ => serve_print htext hfault hprint hkind⟩
  rw [if_neg hprint] at hkind
  by_cases hexit : l4Label m.tag = syscallExitValue
  · exact ⟨_, 0, fun fuel _ => serve_exit htext hfault hexit⟩
  rw [if_neg hexit] at hkind
  obtain ⟨hkill, d, t, ht, hid⟩ := hkind
  rcases killThread_spec hm hlo h (m.mr 1) with ⟨thread, s', -, -, hrun, -, -⟩ | ⟨hnone, -⟩
  · refine ⟨(.silent, { srv with system := s', string := received srv.string m.text }), 0,
      fun fuel _ => ?_⟩
    rw [serve_kill htext hfault hkill, hrun]
    rfl
  · exact absurd hid (hnone d t ht)

/-- Only such a message is answered. -/
theorem served_of_ok (hb : PageBits k.bits) (hm : k.m = 1) (hlo : 0 < lo)
    (h : Sound k lo idBits srv.system live) {r : Reply × Server} (hrun : serve k fuel m srv = .ok r) :
    Served srv m := by
  have htext : m.text.length ≤ maxStringitemLength := by
    by_contra hlong
    rw [serve, if_pos (Nat.not_le.mp hlong)] at hrun
    cases hrun
  refine ⟨htext, ?_⟩
  by_cases hfault : l4Request m.tag = l4Pagefault
  · rw [if_pos hfault]
    rw [serve_fault htext hfault] at hrun
    obtain ⟨hwell, v, hrings⟩ := h
    cases hpage : pagefault k fuel m.partner (m.mr 1) m.tag srv.system with
    | ok item => exact (pagefault_granted hb hwell hrings hpage).2
    | error e =>
      rw [hpage] at hrun
      cases hrun
  rw [if_neg hfault]
  by_cases hprint : l4Label m.tag = syscallPrint
  · rw [if_pos hprint]
    by_contra hlong
    rw [serve, if_neg (Nat.not_lt.mpr htext)] at hrun
    simp only [if_neg hfault, if_pos hprint, if_pos (Nat.not_le.mp hlong)] at hrun
    cases hrun
  rw [if_neg hprint]
  by_cases hexit : l4Label m.tag = syscallExitValue
  · rw [if_pos hexit]
    trivial
  rw [if_neg hexit]
  by_cases hkill : l4Label m.tag = syscallKillThread
  · rw [serve_kill htext hfault hkill] at hrun
    refine ⟨hkill, ?_⟩
    rcases killThread_spec hm hlo h (m.mr 1) with ⟨thread, s', ⟨d, ht⟩, hid, -⟩ | ⟨-, hnull⟩
    · exact ⟨d, thread, ht, hid⟩
    · rw [hnull] at hrun
      cases hrun
  · rw [serve, if_neg (Nat.not_lt.mpr htext)] at hrun
    simp only [if_neg hfault, if_neg hprint, if_neg hexit, if_neg hkill] at hrun
    cases hrun

end

section

variable {k : Machine} {lo idBits fuel tid : Nat} {s : System} {live : List (Nat × Nat)}

/-- A thread that is on no list gets nothing. -/
theorem Well.outside (h : Well k lo idBits s live) (hout : ∀ x ∈ live, x.1 ≠ tid) :
    (∀ d, ∀ t ∈ (s.pd d).threads, s.id t ≠ tid) ∧ killThread k tid s = .error .null ∧
      ∀ n addr tag, pagefault k n tid addr tag s = .error .panic := by
  refine ⟨fun d t ht => hout _ ((h.listed d t).mp ht).2, ?_, fun n addr tag => ?_⟩
  · rw [killThread, h.filed.lookup_none hout]
    exact if_pos rfl
  · obtain ⟨w, htable⟩ := h.table
    obtain ⟨found, hfound, -⟩ := lookup_tells htable addr
    rw [pagefault, hfound]
    cases found with
    | none => rfl
    | some o =>
      have hcheck : secCheck n s.security tid o.addr = .ok (-1) := by
        rw [secCheck, h.filed.lookup_none hout]
        rfl
      simp only [hcheck]
      rfl

end

/-- There is room for a second thread in the domain of the session. -/
theorem second_legal {srv : Server} (hrun : runs (step amd64 50) session quiet = .ok srv)
    (hreached : Reached amd64 2 17 50 srv) :
    (Call.thread 5 (some 0xb100) 0xa100 ⟨true, true, .done⟩).Legal amd64 2 17 srv.system := by
  have heval : (runs (step amd64 50) session quiet).toOption.all (fun srv =>
      (srv.system.pd 5).utcbMemsection ≠ none ∧ 0xa100 ∉ srv.system.security.threads.live ∧
        srv.system.security.owner 0xb100 = 0 ∧ (srv.system.pd 0).threads = [] ∧
        srv.system.threadList = [⟨3, 2 ^ 17⟩]) = true := by
    decide +kernel
  rw [hrun] at heval
  obtain ⟨hself, hentry, howner, hnone, hlist⟩ := of_decide_eq_true heval
  obtain ⟨-, live, hsound⟩ := hreached.sound deployed_order rfl (by decide)
  have horderly := hsound.1.orderly
  refine ⟨hself, fun thread ht => ?_, by decide, hentry, ⟨rfl, rfl, by decide⟩, 3, by decide, by decide,
    ((horderly.numbers 3).mp ⟨⟨3, 2 ^ 17⟩, ?_, le_rfl, by decide⟩).2.2⟩
  · obtain rfl := Option.some.inj ht
    refine ⟨by decide, fun d hd => ?_⟩
    obtain rfl := (horderly.owner d _ hd).symm.trans howner
    rw [hnone] at hd
    exact absurd hd List.not_mem_nil
  · rw [hlist]
    exact List.mem_cons_self

end FreeVMS.Exec
