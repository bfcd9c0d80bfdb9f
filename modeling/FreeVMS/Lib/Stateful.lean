import FreeVMS.Lib.Run

/-!
# Programs over a state

Programs that change a state and may stop with a fault.  `Keeps` is the invariant rule for them: what
every part keeps, the whole keeps, up to a fault as well.
-/

namespace FreeVMS.Run

variable {σ φ α β : Type}

/-- From a state with `I` the program stops with a fault with `A`, or it returns a value with `Q` in a
    state with `I`. -/
def Keeps (A : φ → Prop) (I : σ → Prop) (Q : α → Prop) (m : StateT σ (Except φ) α) : Prop :=
  ∀ s, I s → Ends A (fun r => Q r.1 ∧ I r.2) (m s)

variable {A : φ → Prop} {I : σ → Prop} {Q : α → Prop} {R : β → Prop}

theorem Keeps.pure {a : α} (h : Q a) : Keeps A I Q (pure a : StateT σ (Except φ) α) :=
  fun _ hI => .ok ⟨h, hI⟩

theorem Keeps.bind {m : StateT σ (Except φ) α} {f : α → StateT σ (Except φ) β} (h : Keeps A I Q m)
    (hf : ∀ a, Q a → Keeps A I R (f a)) : Keeps A I R (m >>= f) :=
  fun s hI => (h s hI).bind fun r hr => hf r.1 hr.1 r.2 hr.2

theorem Keeps.mono {m : StateT σ (Except φ) α} {Q' : α → Prop} (h : Keeps A I Q m)
    (hQ : ∀ a, Q a → Q' a) : Keeps A I Q' m :=
  fun s hI => (h s hI).mono fun r hr => ⟨hQ r.1 hr.1, hr.2⟩

theorem Keeps.ite {c : Prop} [Decidable c] {m m' : StateT σ (Except φ) α} (h : c → Keeps A I Q m)
    (h' : ¬ c → Keeps A I Q m') : Keeps A I Q (if c then m else m') := by
  by_cases hc : c
  · rw [if_pos hc]
    exact h hc
  · rw [if_neg hc]
    exact h' hc

end FreeVMS.Run
