import Arandu.Library.Table
import Mathlib.Data.List.Perm.Basic
import Mathlib.Data.List.Nodup

/-!
# Ledgers

The entries of a list that hold something, read as a multiset of what they hold. Changing one entry
changes what it holds and nothing else.
-/

namespace Arandu.Library

open List

variable {α β : Type*} {f : α → Option β} {l : List α} {k : Nat} {x y : α} {b : β}

section

variable (h : l[k]? = some y)
include h

lemma cons_set_perm : (y :: l.set k x).Perm (x :: l) := by
  obtain ⟨hk, rfl⟩ := List.getElem?_eq_some_iff.1 h
  calc (l[k] :: l.set k x).Perm (l[k] :: x :: l.eraseIdx k) :=
      (set_perm_cons_eraseIdx hk x).cons _
    List.Perm _ (x :: l[k] :: l.eraseIdx k) := .swap ..
    List.Perm _ (x :: l) := (getElem_cons_eraseIdx_perm hk).cons x

lemma filterMap_set_keep (hxy : f x = f y) : ((l.set k x).filterMap f).Perm (l.filterMap f) := by
  have hperm := (cons_set_perm (x := x) h).filterMap f
  rw [filterMap_cons, filterMap_cons, hxy] at hperm
  split at hperm
  · exact hperm
  · exact hperm.cons_inv

lemma filterMap_set_gain (hy : f y = none) (hx : f x = some b) :
    ((l.set k x).filterMap f).Perm (b :: l.filterMap f) := by
  have hperm := (cons_set_perm (x := x) h).filterMap f
  rwa [filterMap_cons_none hy, filterMap_cons_some hx] at hperm

lemma filterMap_set_lose (hy : f y = some b) (hx : f x = none) :
    (b :: (l.set k x).filterMap f).Perm (l.filterMap f) := by
  have hperm := (cons_set_perm (x := x) h).filterMap f
  rwa [filterMap_cons_some hy, filterMap_cons_none hx] at hperm

end

lemma filterMap_append_none (hx : f x = none) : (l ++ [x]).filterMap f = l.filterMap f := by
  rw [filterMap_append, filterMap_cons_none hx, filterMap_nil, append_nil]

lemma filterMap_append_some (hx : f x = some b) :
    (l ++ [x]).filterMap f = l.filterMap f ++ [b] := by
  rw [filterMap_append, filterMap_cons_some hx, filterMap_nil]

lemma holder_unique (hnodup : (l.filterMap f).Nodup) {i j : Nat} {y : α} (hx : l[i]? = some x)
    (hy : l[j]? = some y) (hfx : f x = some b) (hfy : f y = some b) : i = j := by
  have hrel := pairwise_filterMap.1 hnodup
  exact index_unique hrel hx hy (fun h => h b hfx b hfy rfl) fun h => h b hfy b hfx rfl

end Arandu.Library
