import Mathlib.Data.List.Infix
import Mathlib.Data.List.Nodup

/-!
# Abbreviations

A word means a key of a list when it is the key, or when it is no key and the beginning of this one
only. Otherwise it is the beginning of several keys, or of none.
-/

namespace FreeVMS.Lib.Abbreviation

variable {α : Type} {keys : List (List α)} {u key : List α} {k k' : Nat}

/-- `u` is the key number `k`, or only its beginning. -/
def Means (keys : List (List α)) (u : List α) (k : Nat) : Prop :=
  keys[k]? = some u ∨
    (u ∉ keys ∧ (∃ key, keys[k]? = some key ∧ u <+: key) ∧
      ∀ j key, keys[j]? = some key → u <+: key → j = k)

/-- `u` is no key, and the beginning of more than one. -/
def Ambiguous (keys : List (List α)) (u : List α) : Prop :=
  u ∉ keys ∧ ∃ (i j : Nat) (key key' : List α), i ≠ j ∧ keys[i]? = some key ∧ u <+: key ∧
    keys[j]? = some key' ∧ u <+: key'

/-- `u` is the beginning of no key. -/
def Unknown (keys : List (List α)) (u : List α) : Prop := ∀ key ∈ keys, ¬ u <+: key

theorem Means.get (h : Means keys u k) : ∃ key, keys[k]? = some key ∧ u <+: key := by
  rcases h with h | ⟨-, h, -⟩
  · exact ⟨u, h, List.prefix_refl u⟩
  · exact h

/-- A word means one key. -/
theorem Means.unique (hkeys : keys.Nodup) (h : Means keys u k) (h' : Means keys u k') : k = k' := by
  rcases h with h | ⟨hnot, ⟨key, hkey, hbegin⟩, -⟩
  · rcases h' with h' | ⟨hnot', -, -⟩
    · obtain ⟨hk, hget⟩ := List.getElem?_eq_some_iff.mp h
      obtain ⟨hk', hget'⟩ := List.getElem?_eq_some_iff.mp h'
      exact (hkeys.getElem_inj_iff).mp (hget.trans hget'.symm)
    · exact absurd (List.mem_of_getElem? h) hnot'
  · rcases h' with h' | ⟨-, -, honly⟩
    · exact absurd (List.mem_of_getElem? h') hnot
    · exact honly k key hkey hbegin

theorem not_ambiguous_of_means (h : Means keys u k) : ¬ Ambiguous keys u := by
  rintro ⟨hnot, i, j, key, key', hij, hi, hbegin, hj, hbegin'⟩
  rcases h with h | ⟨-, -, honly⟩
  · exact hnot (List.mem_of_getElem? h)
  · exact hij ((honly i key hi hbegin).trans (honly j key' hj hbegin').symm)

theorem not_unknown_of_means (h : Means keys u k) : ¬ Unknown keys u := by
  obtain ⟨key, hkey, hbegin⟩ := h.get
  exact fun hunknown => hunknown key (List.mem_of_getElem? hkey) hbegin

theorem not_unknown_of_ambiguous (h : Ambiguous keys u) : ¬ Unknown keys u := by
  obtain ⟨-, i, -, key, -, -, hi, hbegin, -, -⟩ := h
  exact fun hunknown => hunknown key (List.mem_of_getElem? hi) hbegin

end FreeVMS.Lib.Abbreviation
