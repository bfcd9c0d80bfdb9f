import Mathlib.Data.Fin.Basic
import Mathlib.Logic.Function.Basic
import Mathlib.Tactic.Ring

/-!
# Lagged recurrences

Sequences in which `x (k + n)` is a function of `x k`, `x (k + 1)` and `x (k + m)`, and the loop that
computes the next `n` words in place, in a buffer that holds the last `n` of them.
-/

namespace FreeVMS.Lib.Lagged

variable {W : Type} {n m : Nat}

/-- The sequence that starts with `seed`. -/
def word (hn : 1 < n) (hm : m < n) (next : W → W → W → W) (seed : Fin n → W) (k : Nat) : W :=
  if h : k < n then seed ⟨k, h⟩
  else next (word hn hm next seed (k - n)) (word hn hm next seed (k - n + 1))
    (word hn hm next seed (k - n + m))
termination_by k

section

variable {hn : 1 < n} {hm : m < n} {next next' : W → W → W → W} {seed : Fin n → W} {i k : Nat}

theorem word_of_lt (h : k < n) : word hn hm next seed k = seed ⟨k, h⟩ := by
  rw [word, dif_pos h]

theorem word_add : word hn hm next seed (k + n) = next (word hn hm next seed k)
    (word hn hm next seed (k + 1)) (word hn hm next seed (k + m)) := by
  rw [word, dif_neg (by omega), Nat.add_sub_cancel]

/-- Two recurrences that agree on what the first `i` steps read give the same words. -/
theorem word_congr (h : ∀ j, j < i → next' (word hn hm next seed j) (word hn hm next seed (j + 1))
      (word hn hm next seed (j + m)) = word hn hm next seed (j + n)) (hk : k < i + n) :
    word hn hm next' seed k = word hn hm next seed k := by
  induction k using Nat.strongRecOn with
  | ind k ih =>
    by_cases hlt : k < n
    · rw [word_of_lt hlt, word_of_lt hlt]
    · obtain ⟨j, rfl⟩ : ∃ j, k = j + n := ⟨k - n, by omega⟩
      rw [word_add, ih j (by omega) (by omega), ih (j + 1) (by omega) (by omega),
        ih (j + m) (by omega) (by omega), h j (by omega)]

end

/-! ### In place -/

section

variable [NeZero n]

/-- The body for `i`. -/
def step (m : Nat) (next : W → W → W → W) (buf : Fin n → W) (i : Fin n) : Fin n → W :=
  Function.update buf i (next (buf i) (buf (i + 1)) (buf (i + Fin.ofNat n m)))

/-- `for(i = 0; i < k; i++)` -/
def rounds (body : (Fin n → W) → Fin n → Fin n → W) : Nat → (Fin n → W) → Fin n → W
  | 0, buf => buf
  | k + 1, buf => body (rounds body k buf) (Fin.ofNat n k)

variable {hn : 1 < n} {hm : m < n} {next : W → W → W → W} {seed : Fin n → W} {i k : Nat}

/-- The buffer after `k` rounds: the words up to `n + k`. -/
def Window (x : Nat → W) (k : Nat) (buf : Fin n → W) : Prop :=
  ∀ j : Fin n, buf j = x (if j.val < k then j.val + n else j.val)

/-- What is read at `k + d` is the word `k + d`. -/
theorem Window.read {x : Nat → W} {buf : Fin n → W} (h : Window x k buf) (hk : k < n) {d : Nat}
    (hd : d < n) : buf (Fin.ofNat n k + Fin.ofNat n d) = x (k + d) := by
  rw [h]
  congr 1
  simp only [Fin.val_add, Fin.val_ofNat, Nat.mod_eq_of_lt hk, Nat.mod_eq_of_lt hd]
  by_cases hwrap : k + d < n
  · rw [Nat.mod_eq_of_lt hwrap, if_neg (by omega)]
  · have hmod : (k + d) % n = k + d - n := by
      rw [Nat.mod_eq_sub_mod (by omega), Nat.mod_eq_of_lt (by omega)]
    rw [hmod, if_pos (by omega)]
    omega

theorem Window.step {buf : Fin n → W} (h : Window (word hn hm next seed) k buf) (hk : k < n) :
    Window (word hn hm next seed) (k + 1) (step m next buf (Fin.ofNat n k)) := by
  have hzero := h.read hk (d := 0) (by omega)
  have hone := h.read hk hn
  have hmiddle := h.read hk hm
  rw [show Fin.ofNat n 0 = 0 from rfl, Fin.add_zero, Nat.add_zero] at hzero
  rw [show Fin.ofNat n 1 = 1 from rfl] at hone
  intro j
  by_cases hj : j = Fin.ofNat n k
  · subst hj
    rw [Lagged.step, Function.update_self, hzero, hone, hmiddle,
      ← @word_add W n m hn hm next seed k]
    simp [Nat.mod_eq_of_lt hk]
  · have hne : j.val ≠ k := by
      rintro rfl
      exact hj (Fin.ext (Nat.mod_eq_of_lt hk).symm)
    rw [Lagged.step, Function.update_of_ne hj, h j]
    congr 1
    split_ifs <;> omega

theorem rounds_window (hk : k ≤ n) :
    Window (word hn hm next seed) k (rounds (step m next) k seed) := by
  induction k with
  | zero =>
    intro j
    rw [rounds, if_neg (Nat.not_lt_zero _), word_of_lt j.isLt]
  | succ k ih => exact (ih (by omega)).step (by omega)

/-- The loop computes the next `n` words. -/
theorem rounds_eq (hn : 1 < n) (hm : m < n) (j : Fin n) :
    rounds (step m next) n seed j = word hn hm next seed (j + n) := by
  have h : Window (word hn hm next seed) n (rounds (step m next) n seed) :=
    rounds_window (Nat.le_refl n)
  rw [h j, if_pos j.isLt]

end

end FreeVMS.Lib.Lagged
