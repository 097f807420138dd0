import Mathlib.Algebra.GroupWithZero.Nat
import Mathlib.Data.List.Basic

/-!
# Bounded worklists

The first-in first-out loop of an iterative dataflow solver: a node is taken from the queue,
its facts are recomputed, and the nodes that depend on them are queued. Nothing keeps a node
from being queued several times. A solver that guards against divergence counts the visits
and gives up beyond a limit.

* `worklist_isSome`: the guard does not fire if a potential pays for every queued node.
* `worklist_eq_none`: it fires as soon as more nodes are queued than visits are left.
* `worklist_induction`: what holds of facts and queue before, and is kept by every visit, holds
  of the facts with an empty queue at the end.
-/

namespace Arandu.Library

open List

variable {σ : Type} {visit : σ → Nat → σ × List Nat} {queue : List Nat} {limit : Nat}

/-- Visit queued nodes until the queue is empty; `none` if `limit` visits are not enough. -/
def worklist (visit : σ → Nat → σ × List Nat) : Nat → List Nat → σ → Option σ
  | _, [], s => some s
  | 0, _ :: _, _ => none
  | limit + 1, n :: queue, s => worklist visit limit (queue ++ (visit s n).2) (visit s n).1

/-- Every visit consumes one queued node, so a queue that is too long is never emptied. -/
lemma worklist_eq_none (h : limit < queue.length) (s : σ) :
    worklist visit limit queue s = none := by
  induction limit generalizing queue s with
  | zero =>
    match queue with
    | _ :: _ => rfl
  | succ limit ih =>
    match queue with
    | n :: queue =>
      rw [worklist]
      apply ih
      simp only [length_cons, length_append] at h ⊢
      omega

/-- A potential that pays for every node a visit queues bounds the number of visits. -/
lemma worklist_isSome (inv : σ → Prop) (potential : σ → Nat)
    (hvisit : ∀ s n, inv s → inv (visit s n).1 ∧
      (visit s n).2.length + potential (visit s n).1 ≤ potential s) {s : σ} (hinv : inv s)
    (hlimit : queue.length + potential s ≤ limit) : (worklist visit limit queue s).isSome := by
  induction limit generalizing queue s with
  | zero =>
    match queue with
    | [] => rfl
    | n :: queue => simp at hlimit
  | succ limit ih =>
    match queue with
    | [] => rfl
    | n :: queue =>
      obtain ⟨hinv', hpay⟩ := hvisit s n hinv
      apply ih hinv'
      simp only [length_cons, length_append] at hlimit ⊢
      omega

lemma worklist_induction {inv : σ → List Nat → Prop}
    (hvisit : ∀ s n queue, inv s (n :: queue) → inv (visit s n).1 (queue ++ (visit s n).2))
    {s s' : σ} (hinv : inv s queue) (h : worklist visit limit queue s = some s') : inv s' [] := by
  induction limit generalizing queue s with
  | zero =>
    match queue with
    | [] =>
      cases h
      exact hinv
  | succ limit ih =>
    match queue with
    | [] =>
      cases h
      exact hinv
    | n :: queue => exact ih (hvisit s n queue hinv) h

/-! ## Potentials that are sums over a table -/

section Table

variable {α : Type} {f : Nat → α → Nat}

/-- The sum of the entries' potentials, each entry seen with its index. -/
def tablePotential (f : Nat → α → Nat) (table : List α) : Nat :=
  (table.mapIdx f).sum

lemma tablePotential_set {table : List α} {i : Nat} {old : α} (hold : table[i]? = some old)
    (new : α) :
    tablePotential f (table.set i new) + f i old = tablePotential f table + f i new := by
  unfold tablePotential
  induction table generalizing i f with
  | nil => simp at hold
  | cons a table ih =>
    cases i with
    | zero =>
      cases hold
      simp [mapIdx_cons]
      omega
    | succ i =>
      have := ih (f := fun i => f (i + 1)) hold
      simp only [set_cons_succ, mapIdx_cons, sum_cons]
      omega

lemma tablePotential_replicate_le {w : Nat → Nat} {c : Nat} {a : α}
    (h : ∀ i, f i a ≤ w i * c) (n : Nat) :
    tablePotential f (List.replicate n a) ≤ ((List.range n).map w).sum * c := by
  unfold tablePotential
  induction n with
  | zero => simp
  | succ n ih =>
    simp only [replicate_succ', mapIdx_append, sum_append, range_succ,
      map_append, Nat.add_mul, mapIdx_cons, length_replicate,
      Nat.zero_add]
    exact Nat.add_le_add ih (h n)

end Table

end Arandu.Library
