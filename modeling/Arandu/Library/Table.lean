import Mathlib.Data.List.Basic

/-!
# Lists as tables

A list whose entries are found by their position. A step of a system replaces one entry or appends
one; the lemmas say where an entry of the new table comes from.
-/

namespace Arandu.Library

open List

variable {α : Type*} {l : List α} {i j : Nat} {x y z : α}

lemma lt_of_getElem? (h : l[i]? = some x) : i < l.length :=
  (List.getElem?_eq_some_iff.1 h).1

/-- Entries that may stand in neither order are one entry. -/
lemma index_unique {R : α → α → Prop} (hl : l.Pairwise R) (hx : l[i]? = some x)
    (hy : l[j]? = some y) (hxy : ¬ R x y) (hyx : ¬ R y x) : i = j := by
  obtain ⟨hi, rfl⟩ := List.getElem?_eq_some_iff.1 hx
  obtain ⟨hj, rfl⟩ := List.getElem?_eq_some_iff.1 hy
  have hrel := pairwise_iff_getElem.1 hl
  rcases Nat.lt_trichotomy i j with hlt | heq | hlt
  · exact absurd (hrel i j hi hj hlt) hxy
  · exact heq
  · exact absurd (hrel j i hj hi hlt) hyx

lemma getElem?_set_of_some (hj : l[j]? = some x) :
    (l.set j y)[i]? = if j = i then some y else l[i]? := by
  rw [List.getElem?_set, if_pos (lt_of_getElem? hj)]

lemma getElem?_set_at (hj : l[j]? = some x) : (l.set j y)[j]? = some y := by
  rw [getElem?_set_of_some hj, if_pos rfl]

lemma getElem?_set_cases (h : (l.set j y)[i]? = some z) :
    j = i ∧ y = z ∨ j ≠ i ∧ l[i]? = some z := by
  rw [List.getElem?_set] at h
  split at h
  next hji =>
    split at h
    · exact .inl ⟨hji, Option.some.inj h⟩
    · cases h
  next hji => exact .inr ⟨hji, h⟩

lemma getElem?_concat_cases (h : (l ++ [y])[i]? = some z) :
    l[i]? = some z ∨ i = l.length ∧ y = z := by
  rw [List.getElem?_append] at h
  split at h
  · exact .inl h
  next hi =>
    obtain ⟨hlt, hz⟩ := List.getElem?_eq_some_iff.1 h
    rw [length_singleton] at hlt
    refine .inr ⟨by omega, ?_⟩
    rw [← hz, getElem_singleton]

lemma mem_concat : z ∈ l ++ [y] ↔ z ∈ l ∨ z = y := by
  rw [mem_append, mem_singleton]

lemma getElem?_concat_old (h : l[i]? = some z) : (l ++ [y])[i]? = some z := by
  rw [List.getElem?_append_left (lt_of_getElem? h), h]

lemma mem_set_of_ne (hji : j ≠ i) (h : l[i]? = some z) : z ∈ l.set j y :=
  mem_of_getElem? ((getElem?_set_ne hji).trans h)

/-! ## Tables with a default -/

variable {d : α}

lemma getD_set_self (hi : i < l.length) : (l.set i y).getD i d = y := by
  rw [getD_eq_getElem?_getD, getElem?_set_self hi, Option.getD_some]

lemma getD_set_ne (hij : i ≠ j) : (l.set i y).getD j d = l.getD j d := by
  rw [getD_eq_getElem?_getD, getElem?_set_ne hij, ← getD_eq_getElem?_getD]

lemma getD_set_cases (l : List α) (i : Nat) (y d : α) (j : Nat) :
    (l.set i y).getD j d = l.getD j d ∧ (j ≠ i ∨ l.length ≤ j) ∨
      j = i ∧ j < l.length ∧ (l.set i y).getD j d = y := by
  by_cases hij : i = j
  · subst hij
    by_cases hlt : i < l.length
    · exact .inr ⟨rfl, hlt, getD_set_self hlt⟩
    · have hle := Nat.le_of_not_lt hlt
      exact .inl ⟨by rw [set_eq_of_length_le hle], .inr hle⟩
  · exact .inl ⟨getD_set_ne hij, .inl (Ne.symm hij)⟩

end Arandu.Library
