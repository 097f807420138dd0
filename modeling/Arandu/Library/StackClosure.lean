import Mathlib.Data.Finset.Card

/-!
# Closure of a list of nodes by a stack

A set of nodes, kept as a list in the order of discovery, is closed under a relation by a stack
of nodes whose neighbours have not been looked at. One node stops the walk: it is never added.

`grow_closed`: with fuel for every node on the stack and every node not yet seen, everything
that is found has its neighbours among what is found.
-/

namespace Arandu.Library

open List

/-- Look at one neighbour: push it if it is new. -/
def discover (stop : Nat) (walk : List Nat × List Nat) (p : Nat) : List Nat × List Nat :=
  if p ≠ stop ∧ p ∉ walk.2 then (p :: walk.1, walk.2 ++ [p]) else walk

def grow (next : Nat → List Nat) (stop : Nat) : Nat → List Nat → List Nat → List Nat
  | 0, _, seen => seen
  | _ + 1, [], seen => seen
  | fuel + 1, n :: stack, seen =>
    let walk := (next n).foldl (discover stop) (stack, seen)
    grow next stop fuel walk.1 walk.2

section Discover

variable {seen : List Nat}

/-- What looking at some neighbours does. -/
structure Discovered (stop : Nat) (ps stack seen : List Nat) (walk : List Nat × List Nat) :
    Prop where
  stack_subset : ∀ x ∈ stack, x ∈ walk.1
  seen_extends : seen <+: walk.2
  found : ∀ p ∈ ps, p = stop ∨ p ∈ walk.2
  new : ∀ x ∈ walk.2, x ∈ seen ∨ x ∈ walk.1 ∧ x ∈ ps

lemma discovered_foldl (stop : Nat) (ps stack seen : List Nat) :
    Discovered stop ps stack seen (ps.foldl (discover stop) (stack, seen)) := by
  induction ps generalizing stack seen with
  | nil => exact ⟨fun _ h => h, prefix_rfl, nofun, fun _ h => .inl h⟩
  | cons p ps ih =>
    rw [foldl_cons, discover]
    split
    next hp =>
      obtain ⟨hstack, hseen, hfound, hnew⟩ := ih (p :: stack) (seen ++ [p])
      refine ⟨fun x hx => hstack x (mem_cons_of_mem _ hx),
        (prefix_append _ _).trans hseen, ?_, fun x hx => ?_⟩
      · exact forall_mem_cons.2 ⟨.inr (hseen.subset (by simp)), hfound⟩
      rcases hnew x hx with hx | ⟨hwalk, hps⟩
      · rcases mem_append.1 hx with hx | hx
        · exact .inl hx
        · rw [mem_singleton.1 hx]
          exact .inr ⟨hstack p mem_cons_self, mem_cons_self⟩
      · exact .inr ⟨hwalk, mem_cons_of_mem _ hps⟩
    next hp =>
      obtain ⟨hstack, hseen, hfound, hnew⟩ := ih stack seen
      refine ⟨hstack, hseen, forall_mem_cons.2 ⟨?_, hfound⟩, fun x hx => ?_⟩
      · by_cases hstop : p = stop
        · exact .inl hstop
        · exact .inr (hseen.subset (not_not.1 fun hmem => hp ⟨hstop, hmem⟩))
      · exact (hnew x hx).imp_right fun h => ⟨h.1, mem_cons_of_mem _ h.2⟩

/-- The nodes below `n` that have not been seen. -/
def unseen (n : Nat) (seen : List Nat) : Nat := ((Finset.range n).filter (· ∉ seen)).card

lemma unseen_append {n p : Nat} (hp : p < n) (hnew : p ∉ seen) :
    unseen n (seen ++ [p]) + 1 = unseen n seen := by
  have herase : (Finset.range n).filter (· ∉ seen ++ [p]) =
      ((Finset.range n).filter (· ∉ seen)).erase p := by
    ext x
    simp only [Finset.mem_filter, Finset.mem_erase, mem_append, mem_singleton]
    tauto
  rw [unseen, herase]
  exact Finset.card_erase_add_one (Finset.mem_filter.2 ⟨Finset.mem_range.2 hp, hnew⟩)

/-- Every push is paid for by a node that is no longer unseen. -/
lemma discover_cost (stop : Nat) {n : Nat} {ps : List Nat} (hps : ∀ p ∈ ps, p < n)
    (stack seen : List Nat) : (ps.foldl (discover stop) (stack, seen)).1.length +
        unseen n (ps.foldl (discover stop) (stack, seen)).2 = stack.length + unseen n seen := by
  induction ps generalizing stack seen with
  | nil => rfl
  | cons p ps ih =>
    rw [forall_mem_cons] at hps
    rw [foldl_cons, discover]
    split
    next hp =>
      have hpay : unseen n (seen ++ [p]) + 1 = unseen n seen := unseen_append hps.1 hp.2
      have hrest := ih hps.2 (p :: stack) (seen ++ [p])
      rw [length_cons] at hrest
      dsimp only
      omega
    · exact ih hps.2 stack seen

end Discover

variable {next : Nat → List Nat} {stop n fuel : Nat}

lemma prefix_grow (fuel : Nat) (stack seen : List Nat) :
    seen <+: grow next stop fuel stack seen := by
  induction fuel generalizing stack seen with
  | zero => exact prefix_rfl
  | succ fuel ih =>
    cases stack with
    | nil => exact prefix_rfl
    | cons b stack =>
      exact (discovered_foldl stop (next b) stack seen).seen_extends.trans (ih _ _)

lemma mem_grow {P : Nat → Prop} (hnext : ∀ b, ∀ p ∈ next b, P p)
    {stack seen : List Nat} (hseen : ∀ x ∈ seen, P x) :
    ∀ x ∈ grow next stop fuel stack seen, P x := by
  induction fuel generalizing stack seen with
  | zero => exact hseen
  | succ fuel ih =>
    cases stack with
    | nil => exact hseen
    | cons b stack =>
      apply ih
      intro x hx
      rcases (discovered_foldl stop (next b) stack seen).new x hx with hx | ⟨-, hx⟩
      · exact hseen x hx
      · exact hnext b x hx

/-- With enough fuel everything that is found has its neighbours among what is found. -/
lemma grow_closed (hnext : ∀ b, ∀ p ∈ next b, p < n) {stack seen : List Nat}
    (hfuel : stack.length + unseen n seen ≤ fuel) (hstop : stop ∈ seen)
    (hseen : ∀ x ∈ seen, x ≠ stop → x ∈ stack ∨ ∀ p ∈ next x, p ∈ seen) :
    ∀ x ∈ grow next stop fuel stack seen, x ≠ stop →
      ∀ p ∈ next x, p ∈ grow next stop fuel stack seen := by
  induction fuel generalizing stack seen with
  | zero =>
    have hempty : stack = [] := length_eq_zero_iff.1 (by omega)
    subst hempty
    exact fun x hx hne => (hseen x hx hne).resolve_left (by simp)
  | succ fuel ih =>
    cases stack with
    | nil => exact fun x hx hne => (hseen x hx hne).resolve_left (by simp)
    | cons b stack =>
      have hwalk := discovered_foldl stop (next b) stack seen
      have hcost := discover_cost stop (hnext b) stack seen
      rw [length_cons] at hfuel
      refine ih (by omega) (hwalk.seen_extends.subset hstop) fun x hx hne => ?_
      rcases hwalk.new x hx with hx | ⟨hx, -⟩
      · rcases hseen x hx hne with hmem | hclosed
        · rcases mem_cons.1 hmem with rfl | hmem
          · -- the node that has just been looked at
            refine .inr fun p hp => ?_
            rcases hwalk.found p hp with rfl | hfound
            · exact hwalk.seen_extends.subset hstop
            · exact hfound
          · exact .inl (hwalk.stack_subset x hmem)
        · exact .inr fun p hp => hwalk.seen_extends.subset (hclosed p hp)
      · exact .inl hx

end Arandu.Library
