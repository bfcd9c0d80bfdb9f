import FreeVMS.Lib.Run

/-!
# Programs with a state, a trace and faults

A program reads and writes a state, appends events to a trace, and returns a value or
stops with a fault.  The trace is a writer: what happened before can not be undone by what
comes after, so a condition on all events of a run is a condition on all its parts.

`Wp J m s Q` is the weakest precondition of `Q` for the run of `m` from `s`, as the judge
`J` sees it: in a run all of whose events are calm, every event is fine, a fault is one
that is allowed, and a value that is returned satisfies `Q`.  Programs are functions, so a
run always ends.
-/

namespace FreeVMS.Trace

open Run

variable {ε σ φ α β : Type}

/-- What a run leaves behind. -/
structure Outcome (ε σ φ α : Type) where
  log : List ε
  state : σ
  result : Except φ α

/-- The state that a run ends in, or its fault. -/
def Outcome.final (o : Outcome ε σ φ α) : Except φ σ :=
  match o.result with
  | .ok _ => .ok o.state
  | .error e => .error e

def Prog (ε σ φ α : Type) : Type := σ → Outcome ε σ φ α

def Prog.pure (a : α) : Prog ε σ φ α := fun s => ⟨[], s, .ok a⟩

def Prog.bind (m : Prog ε σ φ α) (f : α → Prog ε σ φ β) : Prog ε σ φ β := fun s =>
  match m s with
  | ⟨log, s', .ok a⟩ => let r := f a s'; ⟨log ++ r.log, r.state, r.result⟩
  | ⟨log, s', .error e⟩ => ⟨log, s', .error e⟩

instance : Monad (Prog ε σ φ) where
  pure := Prog.pure
  bind := Prog.bind

/-- Read the state. -/
def read : Prog ε σ φ σ := fun s => ⟨[], s, .ok s⟩

/-- Change the state. -/
def update (f : σ → σ) : Prog ε σ φ Unit := fun s => ⟨[], f s, .ok ()⟩

/-- Stop. -/
def raise (e : φ) : Prog ε σ φ α := fun s => ⟨[], s, .error e⟩

/-- Append an event to the trace. -/
def emit (e : ε) : Prog ε σ φ Unit := fun s => ⟨[e], s, .ok ()⟩

/-- Run `m` if `c` holds. -/
def onlyIf (c : Prop) [Decidable c] (m : Prog ε σ φ Unit) : Prog ε σ φ Unit :=
  if c then m else Prog.pure ()

/-- What a run is judged by. -/
structure Judge (ε φ : Type) where
  calm : ε → Prop
  fine : ε → Prop
  allowed : φ → Prop

def Wp (J : Judge ε φ) (m : Prog ε σ φ α) (s : σ) (Q : α → σ → Prop) : Prop :=
  (∀ e ∈ (m s).log, J.calm e) → (∀ e ∈ (m s).log, J.fine e) ∧
    match (m s).result with
    | .ok a => Q a (m s).state
    | .error f => J.allowed f

section

variable {J : Judge ε φ} {s : σ}

theorem wp_pure {a : α} {Q : α → σ → Prop} (h : Q a s) :
    Wp J (Pure.pure a : Prog ε σ φ α) s Q :=
  fun _ => ⟨fun _ he => absurd he List.not_mem_nil, h⟩

theorem wp_read {Q : σ → σ → Prop} (h : Q s s) : Wp J (read : Prog ε σ φ σ) s Q :=
  fun _ => ⟨fun _ he => absurd he List.not_mem_nil, h⟩

theorem wp_update {f : σ → σ} {Q : Unit → σ → Prop} (h : Q () (f s)) :
    Wp J (update f : Prog ε σ φ Unit) s Q :=
  fun _ => ⟨fun _ he => absurd he List.not_mem_nil, h⟩

theorem wp_raise {e : φ} {Q : α → σ → Prop} (h : J.allowed e) :
    Wp J (raise e : Prog ε σ φ α) s Q :=
  fun _ => ⟨fun _ he => absurd he List.not_mem_nil, h⟩

/-- An event that is not calm takes the run out of consideration. -/
theorem wp_emit {e : ε} {Q : Unit → σ → Prop} (h : J.calm e → J.fine e ∧ Q () s) :
    Wp J (emit e : Prog ε σ φ Unit) s Q := by
  intro hcalm
  have hc : J.calm e := hcalm e List.mem_cons_self
  refine ⟨fun e' he => ?_, (h hc).2⟩
  obtain rfl := List.mem_singleton.mp he
  exact (h hc).1

theorem Wp.mono {m : Prog ε σ φ α} {Q Q' : α → σ → Prop} (h : Wp J m s Q)
    (hQ : ∀ a s', Q a s' → Q' a s') : Wp J m s Q' := by
  intro hcalm
  obtain ⟨hfine, hres⟩ := h hcalm
  refine ⟨hfine, ?_⟩
  cases hr : (m s).result with
  | ok a =>
    rw [hr] at hres
    exact hQ a _ hres
  | error f =>
    rw [hr] at hres
    exact hres

/-- What holds in the end holds of the result and the state that the program has. -/
theorem Wp.reached {m : Prog ε σ φ α} {Q : α → σ → Prop} (h : Wp J m s Q) :
    Wp J m s fun a s' => Q a s' ∧ (m s).result = .ok a ∧ (m s).state = s' := by
  intro hcalm
  obtain ⟨hfine, hres⟩ := h hcalm
  refine ⟨hfine, ?_⟩
  cases hr : (m s).result with
  | ok a =>
    rw [hr] at hres
    exact ⟨hres, rfl, rfl⟩
  | error f =>
    rw [hr] at hres
    exact hres

theorem Wp.and {m : Prog ε σ φ α} {Q Q' : α → σ → Prop} (h : Wp J m s Q) (h' : Wp J m s Q') :
    Wp J m s fun a s' => Q a s' ∧ Q' a s' := by
  intro hcalm
  obtain ⟨hfine, hres⟩ := h hcalm
  obtain ⟨-, hres'⟩ := h' hcalm
  refine ⟨hfine, ?_⟩
  cases hr : (m s).result with
  | ok a =>
    rw [hr] at hres hres'
    exact ⟨hres, hres'⟩
  | error f =>
    rw [hr] at hres
    exact hres

/-- A judge that asks for less. -/
theorem Wp.judge {J' : Judge ε φ} {m : Prog ε σ φ α} {Q : α → σ → Prop} (h : Wp J m s Q)
    (hcalm : ∀ e, J'.calm e → J.calm e) (hfine : ∀ e, J.fine e → J'.fine e)
    (hallowed : ∀ e, J.allowed e → J'.allowed e) : Wp J' m s Q := by
  intro hall
  obtain ⟨hlog, hres⟩ := h fun e he => hcalm e (hall e he)
  refine ⟨fun e he => hfine e (hlog e he), ?_⟩
  cases hr : (m s).result with
  | ok a =>
    rw [hr] at hres
    exact hres
  | error f =>
    rw [hr] at hres
    exact hallowed f hres

/-- What a calm run ends with. -/
theorem Wp.ends {m : Prog ε σ φ α} {Q : α → σ → Prop} (h : Wp J m s Q)
    (hcalm : ∀ e ∈ (m s).log, J.calm e) :
    Ends J.allowed (fun a => Q a (m s).state) (m s).result := by
  have hres := (h hcalm).2
  cases hr : (m s).result with
  | ok a =>
    rw [hr] at hres
    exact .ok hres
  | error e =>
    rw [hr] at hres
    exact .error hres

theorem Wp.final {m : Prog ε σ φ α} {Q : α → σ → Prop} (h : Wp J m s Q)
    (hcalm : ∀ e ∈ (m s).log, J.calm e) :
    Ends J.allowed (fun s' => ∃ a, Q a s') (m s).final := by
  have hres := h.ends hcalm
  rw [Outcome.final]
  cases hr : (m s).result with
  | ok a =>
    rw [hr] at hres
    cases hres with
    | ok hQ => exact .ok ⟨a, hQ⟩
  | error e =>
    rw [hr] at hres
    cases hres with
    | error he => exact .error he

theorem wp_bind {m : Prog ε σ φ α} {f : α → Prog ε σ φ β} {Q : β → σ → Prop}
    (h : Wp J m s fun a s' => Wp J (f a) s' Q) : Wp J (m >>= f) s Q := by
  intro hcalm
  show (∀ e ∈ (Prog.bind m f s).log, J.fine e) ∧ _
  have hcalm' : ∀ e ∈ (Prog.bind m f s).log, J.calm e := hcalm
  have hcase : (Prog.bind m f s) =
      match (m s).result with
      | .ok a => ⟨(m s).log ++ (f a (m s).state).log, (f a (m s).state).state,
          (f a (m s).state).result⟩
      | .error e => ⟨(m s).log, (m s).state, .error e⟩ := by
    unfold Prog.bind
    rcases m s with ⟨log, s', a | e⟩ <;> rfl
  cases hr : (m s).result with
  | ok a =>
    rw [hr] at hcase
    have hlog : (Prog.bind m f s).log = (m s).log ++ (f a (m s).state).log := by rw [hcase]
    rw [hlog] at hcalm'
    obtain ⟨hfine, hres⟩ := h fun e he => hcalm' e (List.mem_append_left _ he)
    rw [hr] at hres
    obtain ⟨hfine', hres'⟩ := hres fun e he => hcalm' e (List.mem_append_right _ he)
    refine ⟨fun e he => ?_, ?_⟩
    · rw [hlog] at he
      rcases List.mem_append.mp he with he | he
      · exact hfine e he
      · exact hfine' e he
    · show match (Prog.bind m f s).result with
        | .ok a => Q a (Prog.bind m f s).state
        | .error f => J.allowed f
      rw [hcase]
      exact hres'
  | error e =>
    rw [hr] at hcase
    have hlog : (Prog.bind m f s).log = (m s).log := by rw [hcase]
    rw [hlog] at hcalm'
    obtain ⟨hfine, hres⟩ := h hcalm'
    rw [hr] at hres
    refine ⟨fun e he => ?_, ?_⟩
    · rw [hlog] at he
      exact hfine e he
    · show match (Prog.bind m f s).result with
        | .ok a => Q a (Prog.bind m f s).state
        | .error f => J.allowed f
      rw [hcase]
      exact hres

theorem wp_ite {c : Prop} [Decidable c] {m m' : Prog ε σ φ α} {Q : α → σ → Prop}
    (h : c → Wp J m s Q) (h' : ¬ c → Wp J m' s Q) : Wp J (if c then m else m') s Q := by
  by_cases hc : c
  · rw [if_pos hc]
    exact h hc
  · rw [if_neg hc]
    exact h' hc

theorem wp_onlyIf {c : Prop} [Decidable c] {m : Prog ε σ φ Unit} {Q : Unit → σ → Prop}
    (h : c → Wp J m s Q) (h' : ¬ c → Q () s) : Wp J (onlyIf c m) s Q :=
  wp_ite h fun hc => wp_pure (h' hc)

end

/-! ### Faults that do not occur -/

/-- The program never stops with the fault `e`. -/
def Prog.Avoids (e : φ) (m : Prog ε σ φ α) : Prop := ∀ s, (m s).result ≠ .error e

section

variable {e : φ}

theorem avoids_pure (a : α) : (Pure.pure a : Prog ε σ φ α).Avoids e := by
  intro s h
  cases h

theorem avoids_read : (read : Prog ε σ φ σ).Avoids e := by
  intro s h
  cases h

theorem avoids_update (f : σ → σ) : (update f : Prog ε σ φ Unit).Avoids e := by
  intro s h
  cases h

theorem avoids_raise {e' : φ} (h : e' ≠ e) : (raise e' : Prog ε σ φ α).Avoids e := by
  intro s hs
  exact h (Except.error.inj hs)

theorem Prog.Avoids.bind {m : Prog ε σ φ α} {f : α → Prog ε σ φ β} (h : m.Avoids e)
    (hf : ∀ a, (f a).Avoids e) : (m >>= f).Avoids e := by
  intro s
  have hm := h s
  show (Prog.bind m f s).result ≠ .error e
  unfold Prog.bind
  rcases hrun : m s with ⟨log, s', e' | a⟩
  · intro herr
    rw [hrun, Except.error.inj herr] at hm
    exact hm rfl
  · exact hf a s'

theorem avoids_ite {c : Prop} [Decidable c] {m m' : Prog ε σ φ α} (h : m.Avoids e) (h' : m'.Avoids e) :
    (if c then m else m').Avoids e := by
  split
  · exact h
  · exact h'

theorem avoids_onlyIf {c : Prop} [Decidable c] {m : Prog ε σ φ Unit} (h : m.Avoids e) :
    (onlyIf c m).Avoids e :=
  avoids_ite h (avoids_pure ())

/-- What is allowed to happen and does not. -/
theorem Wp.exists_ok {J : Judge ε φ} {m : Prog ε σ φ α} {s : σ} {Q : α → σ → Prop} (h : Wp J m s Q)
    (hcalm : ∀ e ∈ (m s).log, J.calm e) (ha : ∀ e, J.allowed e → m.Avoids e) :
    ∃ a, (m s).result = .ok a ∧ Q a (m s).state := by
  have hends := h.ends hcalm
  cases hr : (m s).result with
  | ok a =>
    rw [hr] at hends
    cases hends with
    | ok hQ => exact ⟨a, rfl, hQ⟩
  | error f =>
    rw [hr] at hends
    cases hends with
    | error hf => exact absurd hr (ha f hf s)

end

end FreeVMS.Trace
