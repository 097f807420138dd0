import Mathlib.Data.List.Basic

/-!
# Structured code

A flat sequence of instructions some of which open and some of which close a scope. Leaving a
number of enclosing scopes continues behind the matching end.
-/

namespace Arandu.Library

open List

/-- What an instruction does to the nesting. -/
inductive Nesting where
  | opens
  | closes
  | neutral
deriving DecidableEq

variable {I : Type} (nest : I → Nesting)

/-- The code behind the end of the scope at a depth, `0` being the innermost one. -/
def exitScopes : List I → Nat → Option (List I)
  | [], _ => none
  | x :: xs, depth =>
    match nest x with
    | .opens => exitScopes xs (depth + 1)
    | .neutral => exitScopes xs depth
    | .closes => if depth = 0 then some xs else exitScopes xs (depth - 1)

variable {nest} {xs : List I}

lemma exitScopes_neutral (h : ∀ x ∈ xs, nest x = .neutral) (ys : List I)
    (depth : Nat) : exitScopes nest (xs ++ ys) depth = exitScopes nest ys depth := by
  induction xs with
  | nil => rfl
  | cons x xs ih =>
    rw [cons_append, exitScopes, h x mem_cons_self]
    exact ih fun y hy => h y (mem_cons_of_mem x hy)

lemma exitScopes_opens (h : ∀ x ∈ xs, nest x = .opens) (ys : List I)
    (depth : Nat) : exitScopes nest (xs ++ ys) depth = exitScopes nest ys (xs.length + depth) := by
  induction xs generalizing depth with
  | nil => rw [length_nil, Nat.zero_add]; rfl
  | cons x xs ih =>
    rw [cons_append, exitScopes, h x mem_cons_self, length_cons]
    dsimp only
    rw [ih fun y hy => h y (mem_cons_of_mem x hy)]
    congr 1
    omega

lemma exitScopes_closes (h : ∀ x ∈ xs, nest x = .closes) (ys : List I)
    (depth : Nat) : exitScopes nest (xs ++ ys) (xs.length + depth) = exitScopes nest ys depth := by
  induction xs with
  | nil => rw [length_nil, Nat.zero_add]; rfl
  | cons x xs ih =>
    have hless : xs.length + 1 + depth - 1 = xs.length + depth := by omega
    rw [cons_append, exitScopes, h x mem_cons_self, length_cons]
    rw [if_neg (by omega), hless]
    exact ih fun y hy => h y (mem_cons_of_mem x hy)

lemma exitScopes_end {x : I} (h : nest x = .closes) (ys : List I) :
    exitScopes nest (x :: ys) 0 = some ys := by
  rw [exitScopes, h]
  rfl

end Arandu.Library
