import FreeVMS.Lib.LinkRing

/-!
# Chains of pointers

A singly linked list that ends with a pointer to nothing.  A cell is put in front of a chain or
is taken out behind another one; links of other cells do not matter.  A ring is a chain from the
successor of its head to the head.
-/

namespace FreeVMS.LinkChain

open LinkRing

variable {α : Type}

/-- From `p` on, the cells are those of `l`, and then comes `stop`. -/
def Chain (next : α → α) (stop : α) : α → List α → Prop
  | p, [] => p = stop
  | p, x :: l => p = x ∧ x ≠ stop ∧ Chain next stop (next x) l

variable {next next' : α → α} {stop p x : α} {l : List α}

theorem Chain.congr (h : Chain next stop p l) (heq : ∀ y ∈ l, next' y = next y) :
    Chain next' stop p l := by
  induction l generalizing p with
  | nil => exact h
  | cons y l ih =>
    obtain ⟨hp, hy, hrest⟩ := h
    refine ⟨hp, hy, ?_⟩
    rw [heq y List.mem_cons_self]
    exact ih hrest fun z hz => heq z (List.mem_cons_of_mem _ hz)

/-- The head of a ring is the only cell that comes before the first one. -/
theorem ring_next_ne {L : Links α} {h : α} (hv : Hangs L h l) (hx : x ∈ l) :
    L.next x ≠ L.next h := by
  intro heq
  have hhead : x = h := hv.path.next_inj hv.nodup (List.mem_cons_of_mem _ hx) List.mem_cons_self heq
  exact (List.nodup_cons.mp hv.nodup).1 (hhead ▸ hx)

/-- The cells of a ring, from the first one on. -/
theorem chain_of_path {h a : α} (hpath : Path next a l h) (hh : h ∉ l) :
    Chain next h (next a) l := by
  induction l generalizing a with
  | nil => exact hpath
  | cons y l ih =>
    obtain ⟨hy, hrest⟩ := hpath
    refine ⟨hy, fun heq => hh (heq ▸ List.mem_cons_self), ?_⟩
    exact ih hrest fun hmem => hh (List.mem_cons_of_mem _ hmem)

section

variable [DecidableEq α]

/-- A cell is put in front. -/
theorem Chain.push (h : Chain next stop p l) (hx : x ∉ l) (hstop : x ≠ stop) :
    Chain (Function.update next x p) stop x (x :: l) := by
  refine ⟨rfl, hstop, ?_⟩
  rw [Function.update_self]
  refine h.congr fun y hy => Function.update_of_ne ?_ _ _
  rintro rfl
  exact hx hy

/-- The cell behind the first one is taken out. -/
theorem Chain.unlink {y : α} (h : Chain next stop p (x :: y :: l)) (hx : x ∉ l) :
    Chain (Function.update next x (next y)) stop p (x :: l) := by
  obtain ⟨hp, hstop, -, -, hrest⟩ := h
  refine ⟨hp, hstop, ?_⟩
  rw [Function.update_self]
  refine hrest.congr fun z hz => Function.update_of_ne ?_ _ _
  rintro rfl
  exact hx hz

end

end FreeVMS.LinkChain
