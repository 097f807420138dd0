import Mathlib.Algebra.GroupWithZero.Nat
import Mathlib.Data.List.AList

/-!
# Maps from keys to counts

Finite maps whose values are counts, with the sum of all counts.
-/

namespace Arandu.Library

/-- A finite map from keys to counts. -/
abbrev CountMap (α : Type) := AList fun _ : α => Nat

namespace CountMap

variable {α : Type} [DecidableEq α]

def count (m : CountMap α) (a : α) : Nat := (m.lookup a).getD 0

/-- The sum of all counts. -/
def total (m : CountMap α) : Nat := (m.entries.map Sigma.snd).sum

variable (m : CountMap α)
include m

lemma total_eq_count_add_erase (a : α) : m.total = m.count a + total (m.erase a) := by
  obtain ⟨entries, hnodup⟩ := m
  show (entries.map Sigma.snd).sum =
    (List.dlookup a entries).getD 0 + ((List.kerase a entries).map Sigma.snd).sum
  clear hnodup
  induction entries with
  | nil => rfl
  | cons e entries ih =>
    obtain ⟨b, n⟩ := e
    by_cases hab : a = b
    · subst hab
      simp
    · rw [List.dlookup_cons_ne entries ⟨b, n⟩ hab, List.kerase_cons_ne hab]
      simp only [List.map_cons, List.sum_cons]
      omega

lemma total_insert (a : α) (n : Nat) : total (m.insert a n) + m.count a = m.total + n := by
  have hcons : total (m.insert a n) = n + total (m.erase a) := by
    rfl
  rw [m.total_eq_count_add_erase a]
  omega

lemma count_insert_self (a : α) (n : Nat) : count (m.insert a n) a = n := by
  simp [count]

lemma count_insert_of_ne {a b : α} (h : b ≠ a) (n : Nat) : count (m.insert a n) b = m.count b := by
  simp [count, AList.lookup_insert_ne h]

lemma count_erase_self (a : α) : count (m.erase a) a = 0 := by
  simp [count]

lemma count_erase_of_ne {a b : α} (h : b ≠ a) : count (m.erase a) b = m.count b := by
  simp [count, AList.lookup_erase_ne h]

lemma count_le_total (a : α) : m.count a ≤ m.total := by
  rw [m.total_eq_count_add_erase a]
  exact Nat.le_add_right _ _

end CountMap

end Arandu.Library
