import Mathlib.Data.List.Induction

/-!
# Runs

A machine takes inputs one after the other and stops at the first fault.  `Along` asks for a
condition at every step of a run; `runs_induction` is the invariant rule for such runs.
-/

namespace FreeVMS.Run

variable {ι σ φ : Type}

/-- A run ends in a state with `Q` or with a fault with `A`. -/
inductive Ends (A : φ → Prop) (Q : σ → Prop) : Except φ σ → Prop
  | ok {s : σ} : Q s → Ends A Q (.ok s)
  | error {e : φ} : A e → Ends A Q (.error e)

/-- The fault a run ended with. -/
def fault : Except φ σ → Option φ
  | .ok _ => none
  | .error e => some e

section

variable (step : ι → σ → Except φ σ)

/-- Take the inputs one after the other. -/
def runs : List ι → σ → Except φ σ
  | [], s => .ok s
  | i :: is, s =>
      match step i s with
      | .ok s' => runs is s'
      | .error e => .error e

/-- `P` holds of the input and the state at each step of the run. -/
def Along (P : ι → σ → Prop) : List ι → σ → Prop
  | [], _ => True
  | i :: is, s => P i s ∧ ∀ s', step i s = .ok s' → Along P is s'

end

variable {step : ι → σ → Except φ σ} {P P' : ι → σ → Prop} {I : σ → Prop} {A : φ → Prop}

theorem Ends.mono {r : Except φ σ} {Q Q' : σ → Prop} (h : Ends A Q r) (hQ : ∀ s, Q s → Q' s) :
    Ends A Q' r := by
  cases h with
  | ok h => exact .ok (hQ _ h)
  | error h => exact .error h

/-- The rule for one call after another. -/
theorem Ends.bind {τ : Type} {r : Except φ σ} {f : σ → Except φ τ} {Q : σ → Prop} {R : τ → Prop}
    (h : Ends A Q r) (hf : ∀ s, Q s → Ends A R (f s)) : Ends A R (r >>= f) := by
  cases h with
  | ok h => exact hf _ h
  | error h => exact .error h

/-- Where no fault is allowed the run goes through. -/
theorem Ends.exists_ok {r : Except φ σ} {Q : σ → Prop} (h : Ends A Q r) (hA : ∀ e, ¬ A e) :
    ∃ s, r = .ok s ∧ Q s := by
  cases h with
  | ok h => exact ⟨_, rfl, h⟩
  | error h => exact absurd h (hA _)

theorem not_ends_of_fault {r : Except φ σ} {Q : σ → Prop} {e : φ} (h : fault r = some e)
    (hA : ¬ A e) : ¬ Ends A Q r := by
  intro hr
  cases hr with
  | ok _ => exact absurd h (by simp [fault])
  | @error e' he =>
    obtain rfl : e' = e := Option.some.inj h
    exact hA he

theorem runs_append (is js : List ι) (s : σ) :
    runs step (is ++ js) s =
      match runs step is s with
      | .ok s' => runs step js s'
      | .error e => .error e := by
  induction is generalizing s with
  | nil => rfl
  | cons i is ih =>
    simp only [List.cons_append, runs]
    cases step i s with
    | ok s' => exact ih s'
    | error e => rfl

theorem Along.cons {i : ι} {is : List ι} {s s' : σ} (hs : step i s = .ok s') (hP : P i s)
    (hrest : Along step P is s') : Along step P (i :: is) s := by
  refine ⟨hP, fun s'' hs'' => ?_⟩
  obtain rfl : s' = s'' := Except.ok.inj (hs.symm.trans hs'')
  exact hrest

theorem Along.of_forall {is : List ι} (h : ∀ i ∈ is, ∀ s, P i s) (s : σ) : Along step P is s := by
  induction is generalizing s with
  | nil => trivial
  | cons i is ih =>
    exact ⟨h i List.mem_cons_self s, fun s' _ => ih (fun j hj => h j (List.mem_cons_of_mem _ hj)) s'⟩

theorem Along.and : ∀ {is : List ι} {s : σ}, Along step P is s → Along step P' is s →
    Along step (fun i s => P i s ∧ P' i s) is s := by
  intro is
  induction is with
  | nil => exact fun _ _ => trivial
  | cons i is ih =>
    exact fun h h' => ⟨⟨h.1, h'.1⟩, fun s' hs => ih (h.2 s' hs) (h'.2 s' hs)⟩

instance decidableAlong [∀ i s, Decidable (P i s)] : ∀ is s, Decidable (Along step P is s)
  | [], _ => isTrue trivial
  | i :: is, s =>
      match hs : step i s with
      | .ok s' =>
          have := decidableAlong is s'
          decidable_of_iff (P i s ∧ Along step P is s')
            ⟨fun h => Along.cons hs h.1 h.2, fun h => ⟨h.1, h.2 s' hs⟩⟩
      | .error _ =>
          decidable_of_iff (P i s)
            ⟨fun h => ⟨h, fun _ hs' => nomatch hs.symm.trans hs'⟩, fun h => h.1⟩

theorem Along.mono (hP : ∀ i s, P i s → P' i s) :
    ∀ {is : List ι} {s : σ}, Along step P is s → Along step P' is s := by
  intro is
  induction is with
  | nil => exact fun _ => trivial
  | cons i is ih => exact fun h => ⟨hP _ _ h.1, fun s' hs => ih (h.2 s' hs)⟩

theorem along_of_runs_ok : ∀ {is : List ι} {s s' : σ}, runs step is s = .ok s' →
    Along step (fun i s => ∃ s', step i s = .ok s') is s := by
  intro is
  induction is with
  | nil => exact fun _ => trivial
  | cons i is ih =>
    intro s s' h
    rw [runs] at h
    cases hs : step i s with
    | ok s₁ =>
      rw [hs] at h
      exact Along.cons hs ⟨s₁, hs⟩ (ih h)
    | error e =>
      rw [hs] at h
      exact nomatch h

/-- What every step does from a state with the invariant holds along every run. -/
theorem Along.of_inv {L : ι → σ → Prop} (hstep : ∀ i s, I s → L i s → P i s)
    (hinv : ∀ i s s', I s → L i s → step i s = .ok s' → I s') :
    ∀ (is : List ι) (s : σ), I s → Along step L is s → Along step P is s := by
  intro is
  induction is with
  | nil => exact fun _ _ _ => trivial
  | cons i is ih =>
    intro s hI hL
    exact ⟨hstep i s hI hL.1, fun s' hs => ih s' (hinv i s s' hI hL.1 hs) (hL.2 s' hs)⟩

/-- Two conditions that amount to the same from every state with the invariant `I`, which the steps
    keep as long as they meet the condition, amount to the same along every run. -/
theorem Along.congr {L : ι → σ → Prop} (hiff : ∀ i s, I s → L i s → (P i s ↔ P' i s))
    (hinv : ∀ i s s', I s → L i s → P' i s → step i s = .ok s' → I s') :
    ∀ (is : List ι) (s : σ), I s → Along step L is s → (Along step P is s ↔ Along step P' is s) := by
  intro is
  induction is with
  | nil => exact fun _ _ _ => Iff.rfl
  | cons i is ih =>
    intro s hI hL
    have hhead := hiff i s hI hL.1
    constructor
    · intro hP
      refine ⟨hhead.mp hP.1, fun s' hs => ?_⟩
      exact (ih s' (hinv i s s' hI hL.1 (hhead.mp hP.1) hs) (hL.2 s' hs)).mp (hP.2 s' hs)
    · intro hP'
      refine ⟨hhead.mpr hP'.1, fun s' hs => ?_⟩
      exact (ih s' (hinv i s s' hI hL.1 hP'.1 hs) (hL.2 s' hs)).mpr (hP'.2 s' hs)

/-- Each step keeps `R` between the state and a record of the inputs that determines it, if and only if
    `R` holds after each part of the run. -/
theorem along_iff_forall_take {γ : Type} {R : σ → γ → Prop} {f : γ → ι → γ}
    (hR : ∀ s g g', R s g → R s g' → g = g') : ∀ (is : List ι) (s : σ) (g : γ), R s g →
      (Along step (fun i s => ∀ g s', R s g → step i s = .ok s' → R s' (f g i)) is s ↔
        ∀ n s', runs step (is.take n) s = .ok s' → R s' ((is.take n).foldl f g)) := by
  intro is
  induction is with
  | nil =>
    refine fun s g hg => ⟨fun _ n s' hs' => ?_, fun _ => trivial⟩
    rw [List.take_nil] at hs' ⊢
    obtain rfl := Except.ok.inj hs'
    exact hg
  | cons i is ih =>
    refine fun s g hg => ⟨fun h n s' hs' => ?_, fun h => ⟨fun g' s' hg' hs' => ?_, fun s' hs' => ?_⟩⟩
    · cases n with
      | zero =>
        obtain rfl := Except.ok.inj hs'
        exact hg
      | succ n =>
        rw [List.take_succ_cons, runs] at hs'
        cases hs : step i s with
        | ok s₁ =>
          rw [hs] at hs'
          exact (ih s₁ (f g i) (h.1 g s₁ hg hs)).mp (h.2 s₁ hs) n s' hs'
        | error e =>
          rw [hs] at hs'
          exact nomatch hs'
    · obtain rfl := hR s g g' hg hg'
      exact h 1 s' (by simp [runs, hs'])
    · have hnext : R s' (f g i) := h 1 s' (by simp [runs, hs'])
      refine (ih s' (f g i) hnext).mpr fun n s'' hs'' => h (n + 1) s'' ?_
      rw [List.take_succ_cons, runs, hs']
      exact hs''

/-- A property of the inputs so far that each step keeps if and only if it meets a condition holds of
    all the parts of the inputs if and only if all the steps meet the condition. -/
theorem forall_prefix_iff {P : List ι → Prop} {C : List ι → ι → Prop} (h0 : P [])
    (hstep : ∀ pre i, P pre → (P (pre ++ [i]) ↔ C pre i)) (is : List ι) :
    (∀ pre, pre <+: is → P pre) ↔ ∀ pre i, pre ++ [i] <+: is → C pre i := by
  constructor
  · intro h pre i hpre
    exact (hstep pre i (h pre ((List.prefix_append pre [i]).trans hpre))).mp (h _ hpre)
  · intro h pre
    induction pre using List.reverseRecOn with
    | nil => exact fun _ => h0
    | append_singleton pre i ih =>
      intro hpre
      exact (hstep pre i (ih ((List.prefix_append pre [i]).trans hpre))).mpr (h pre i hpre)

/-- The invariant rule. -/
theorem runs_induction (hstep : ∀ i s, I s → P i s → Ends A I (step i s)) :
    ∀ (is : List ι) (s : σ), I s → Along step P is s → Ends A I (runs step is s) := by
  intro is
  induction is with
  | nil => exact fun _ hI _ => .ok hI
  | cons i is ih =>
    intro s hI hP
    have h := hstep i s hI hP.1
    rw [runs]
    cases hs : step i s with
    | ok s' =>
      rw [hs] at h
      cases h with
      | ok hI' => exact ih s' hI' (hP.2 s' hs)
    | error e =>
      rw [hs] at h
      cases h with
      | error he => exact .error he

/-- The simulation rule.  Each step goes through and keeps `R` between the state and a record of the
    inputs; so does the run. -/
theorem runs_simulates {γ : Type} {R : σ → γ → Prop} {f : γ → ι → γ}
    (hstep : ∀ i s g, R s g → P i s → ∃ s', step i s = .ok s' ∧ R s' (f g i)) :
    ∀ (is : List ι) (s : σ) (g : γ), R s g → Along step P is s →
      ∃ s', runs step is s = .ok s' ∧ R s' (is.foldl f g) := by
  intro is
  induction is with
  | nil => exact fun s _ hg _ => ⟨s, rfl, hg⟩
  | cons i is ih =>
    intro s g hg hP
    obtain ⟨s', hs, hg'⟩ := hstep i s g hg hP.1
    rw [runs, hs]
    exact ih s' (f g i) hg' (hP.2 s' hs)

/-- The simulation rule, for a condition on the record. -/
theorem runs_refines {γ : Type} {R : σ → γ → Prop} {f : γ → ι → γ} {L : ι → γ → Prop}
    (hstep : ∀ i s g, R s g → L i g → ∃ s', step i s = .ok s' ∧ R s' (f g i)) :
    ∀ (is : List ι) (s : σ) (g : γ), R s g →
      Along (fun i g => (.ok (f g i) : Except Empty γ)) L is g →
      ∃ s', runs step is s = .ok s' ∧ R s' (is.foldl f g) := by
  intro is
  induction is with
  | nil => exact fun s _ hg _ => ⟨s, rfl, hg⟩
  | cons i is ih =>
    intro s g hg hL
    obtain ⟨s', hs, hg'⟩ := hstep i s g hg hL.1
    rw [runs, hs]
    exact ih s' (f g i) hg' (hL.2 (f g i) rfl)

end FreeVMS.Run
