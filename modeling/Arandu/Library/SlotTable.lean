import Mathlib.Data.List.Nodup
import Mathlib.Data.List.Perm.Subperm
import Arandu.Library.Table

/-!
# Slot tables with a free list

A table recycles its slots through a stack of free indices. `FreeList` says that the stack holds
exactly the vacant slots, each once; every way to take, fill and release a slot keeps it.
-/

namespace Arandu.Library

open List

/-- The free list holds every vacant slot once. -/
structure FreeList {α : Type} (vacant : α → Prop) (slots : List α) (free : List Nat) : Prop where
  nodup : free.Nodup
  mem_iff : ∀ i, i ∈ free ↔ ∃ s, slots[i]? = some s ∧ vacant s

namespace FreeList

variable {α : Type} {vacant : α → Prop} {slots : List α} {free : List Nat} {i : Nat} {s s' : α}

lemma nil : FreeList vacant [] [] := ⟨nodup_nil, by simp⟩

lemma get (h : FreeList vacant slots (i :: free)) : ∃ s, slots[i]? = some s ∧ vacant s :=
  (h.mem_iff i).1 mem_cons_self

lemma take (h : FreeList vacant slots (i :: free)) (hs' : ¬ vacant s') :
    FreeList vacant (slots.set i s') free := by
  obtain ⟨hi, hnodup⟩ := nodup_cons.1 h.nodup
  refine ⟨hnodup, fun j => ?_⟩
  by_cases hj : j = i
  · subst hj
    obtain ⟨s, hs, -⟩ := h.get
    have hlt := lt_of_getElem? hs
    simp [hi, hlt, hs']
  · have hmem := h.mem_iff j
    rw [mem_cons, or_iff_right hj] at hmem
    rw [hmem, getElem?_set_ne (Ne.symm hj)]

variable (h : FreeList vacant slots free)
include h

lemma append (hs : ¬ vacant s) : FreeList vacant (slots ++ [s]) free := by
  refine ⟨h.nodup, fun j => ?_⟩
  rw [h.mem_iff j]
  constructor
  · intro ⟨u, hu, hvacant⟩
    exact ⟨u, getElem?_concat_old hu, hvacant⟩
  · intro ⟨u, hu, hvacant⟩
    rcases getElem?_concat_cases hu with hold | ⟨-, rfl⟩
    · exact ⟨u, hold, hvacant⟩
    · exact absurd hvacant hs

lemma release (hs : slots[i]? = some s) (hused : ¬ vacant s) (hs' : vacant s') :
    FreeList vacant (slots.set i s') (i :: free) := by
  have hlt := lt_of_getElem? hs
  constructor
  · refine nodup_cons.2 ⟨fun hi => ?_, h.nodup⟩
    obtain ⟨u, hu, hvacant⟩ := (h.mem_iff i).1 hi
    cases hs.symm.trans hu
    exact hused hvacant
  · intro j
    by_cases hj : j = i
    · subst hj
      simp [hlt, hs']
    · rw [mem_cons, or_iff_right hj, h.mem_iff j, getElem?_set_ne (Ne.symm hj)]

lemma keep (hs : slots[i]? = some s) (hused : ¬ vacant s) (hs' : ¬ vacant s') :
    FreeList vacant (slots.set i s') free := by
  have hlt := lt_of_getElem? hs
  refine ⟨h.nodup, fun j => ?_⟩
  rw [h.mem_iff j]
  by_cases hj : j = i
  · subst hj
    rw [getElem?_set_self hlt, hs]
    simp [hused, hs']
  · rw [getElem?_set_ne (Ne.symm hj)]

lemma length_le : free.length ≤ slots.length := by
  have hsubset : free ⊆ List.range slots.length := by
    intro i hi
    obtain ⟨s, hs, -⟩ := (h.mem_iff i).1 hi
    exact List.mem_range.2 (lt_of_getElem? hs)
  simpa using (subperm_of_subset h.nodup hsubset).length_le

end FreeList

/-! ## Generations

The occupants of a slot are told apart by a generation that grows with every one, up to a limit;
a slot that has reached it is not used again. -/

section Generations

variable {α : Type} {gen : α → Nat} {vacant : α → Prop} {limit : Nat} {slots : List α}
  {free : List Nat} {i j g : Nat} {s s' : α}

/-- No generation is above the limit, and vacant slots are below it. -/
structure Generational (gen : α → Nat) (vacant : α → Prop) (limit : Nat) (slots : List α)
    (free : List Nat) : Prop where
  list : FreeList vacant slots free
  bounded : ∀ {i : Nat} {s}, slots[i]? = some s → gen s ≤ limit
  reusable : ∀ {i : Nat} {s}, slots[i]? = some s → vacant s → gen s < limit

/-- Slot `i` has come to generation `g`. -/
def Passed (gen : α → Nat) (slots : List α) (i g : Nat) : Prop :=
  ∃ s, slots[i]? = some s ∧ g ≤ gen s

lemma Passed.append (h : Passed gen slots i g) (s : α) : Passed gen (slots ++ [s]) i g := by
  obtain ⟨u, hu, hg⟩ := h
  exact ⟨u, getElem?_concat_old hu, hg⟩

lemma Passed.set (h : Passed gen slots i g) (hs : slots[j]? = some s) (hle : gen s ≤ gen s') :
    Passed gen (slots.set j s') i g := by
  obtain ⟨u, hu, hg⟩ := h
  by_cases hij : i = j
  · subst hij
    cases hs.symm.trans hu
    exact ⟨s', getElem?_set_at hs, Nat.le_trans hg hle⟩
  · exact ⟨u, by rw [getElem?_set_ne (Ne.symm hij), hu], hg⟩

namespace Generational

lemma nil : Generational gen vacant limit [] [] :=
  ⟨.nil, nofun, nofun⟩

lemma of_set (h : Generational gen vacant limit slots free) {free' : List Nat}
    (hlist : FreeList vacant (slots.set j s') free') (hle : gen s' ≤ limit)
    (hlt : vacant s' → gen s' < limit) : Generational gen vacant limit (slots.set j s') free' := by
  refine ⟨hlist, fun hu => ?_, fun hu hvacant => ?_⟩
  · rcases getElem?_set_cases hu with ⟨-, rfl⟩ | ⟨-, hu⟩
    · exact hle
    · exact h.bounded hu
  · rcases getElem?_set_cases hu with ⟨-, rfl⟩ | ⟨-, hu⟩
    · exact hlt hvacant
    · exact h.reusable hu hvacant

/-- The slot on top of the free list can have one more occupant. -/
lemma get (h : Generational gen vacant limit slots (i :: free)) :
    ∃ s, slots[i]? = some s ∧ vacant s ∧ gen s < limit := by
  obtain ⟨s, hs, hvacant⟩ := h.list.get
  exact ⟨s, hs, hvacant, h.reusable hs hvacant⟩

lemma take (h : Generational gen vacant limit slots (i :: free)) (hs' : ¬ vacant s')
    (hle : gen s' ≤ limit) : Generational gen vacant limit (slots.set i s') free :=
  h.of_set (h.list.take hs') hle fun hvacant => absurd hvacant hs'

variable (h : Generational gen vacant limit slots free)
include h

lemma append (hs : ¬ vacant s) (hle : gen s ≤ limit) :
    Generational gen vacant limit (slots ++ [s]) free := by
  refine ⟨h.list.append hs, fun {i u} hu => ?_, fun {i u} hu hvacant => ?_⟩
  · rcases getElem?_concat_cases hu with hold | ⟨-, rfl⟩
    · exact h.bounded hold
    · exact hle
  · rcases getElem?_concat_cases hu with hold | ⟨-, rfl⟩
    · exact h.reusable hold hvacant
    · exact absurd hvacant hs

lemma release (hs : slots[i]? = some s) (hused : ¬ vacant s) (hs' : vacant s')
    (hlt : gen s' < limit) : Generational gen vacant limit (slots.set i s') (i :: free) :=
  h.of_set (h.list.release hs hused hs') (Nat.le_of_lt hlt) fun _ => hlt

lemma keep (hs : slots[i]? = some s) (hused : ¬ vacant s) (hs' : ¬ vacant s')
    (hle : gen s' ≤ limit) : Generational gen vacant limit (slots.set i s') free :=
  h.of_set (h.list.keep hs hused hs') hle fun hvacant => absurd hvacant hs'

end Generational

end Generations

end Arandu.Library
