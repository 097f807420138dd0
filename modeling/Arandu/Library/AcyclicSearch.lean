import Arandu.Library.Dfs

/-!
# Search for a cycle

A depth-first search over a graph some of whose nodes are skipped. It answers `true` if it never
meets a node that is still open. Then no infinite walk that avoids the skipped nodes starts at
the root (`acyclicLoop_acc`), so a computation along such walks comes to an end.
-/

namespace Arandu.Library

section Search

variable (succ : Nat → List Nat) (skip : Nat → Bool)

/-- A node is opened when its frame is pushed and closed when its frame is popped; `none` is a
search that ran out of fuel. -/
def acyclicLoop : Nat → List Nat → List Nat → List (Nat × Nat) → Option Bool
  | _, _, _, [] => some true
  | 0, _, _, _ :: _ => none
  | fuel + 1, opened, closed, (b, k) :: stack =>
    match (succ b)[k]? with
    | none => acyclicLoop fuel opened (b :: closed) stack
    | some s =>
      if skip s || closed.contains s then acyclicLoop fuel opened closed ((b, k + 1) :: stack)
      else if opened.contains s then some false
      else acyclicLoop fuel (s :: opened) closed ((s, 0) :: (b, k + 1) :: stack)

def InnerEdge (v u : Nat) : Prop := v ∈ succ u ∧ skip v = false

/-- What the frames know: what they have scanned is skipped, closed, or the frame above. -/
def Scanned (closed : List Nat) : Option Nat → List (Nat × Nat) → Prop
  | _, [] => True
  | above, (b, k) :: stack =>
    (∀ s ∈ (succ b).take k, skip s = true ∨ s ∈ closed ∨ above = some s) ∧
      Scanned closed (some b) stack

end Search

variable {succ : Nat → List Nat} {skip : Nat → Bool} {stack : List (Nat × Nat)} {closed : List Nat}
  {above : Option Nat}

lemma scanned_start (root : Nat) : Scanned succ skip [] none [(root, 0)] :=
  ⟨fun _ hs => by simp at hs, trivial⟩

lemma Scanned.mono {closed' : List Nat} (hsub : ∀ x ∈ closed, x ∈ closed')
    (h : Scanned succ skip closed above stack) : Scanned succ skip closed' above stack := by
  induction stack generalizing above with
  | nil => trivial
  | cons fr stack ih => exact ⟨fun s hs => (h.1 s hs).imp_right (.imp_left (hsub s)), ih h.2⟩

open List

lemma Scanned.popped {b : Nat} (h : Scanned succ skip closed (some b) stack) :
    Scanned succ skip (b :: closed) none stack := by
  cases stack with
  | nil => trivial
  | cons fr stack =>
    refine ⟨fun s hs => ?_, h.2.mono fun x hx => mem_cons_of_mem _ hx⟩
    rcases h.1 s hs with hskip | hclosed | habove
    · exact .inl hskip
    · exact .inr (.inl (mem_cons_of_mem _ hclosed))
    · exact .inr (.inl (Option.some.inj habove ▸ mem_cons_self))

lemma Scanned.advance {b k s : Nat}
    (h : Scanned succ skip closed none ((b, k) :: stack)) (hs : (succ b)[k]? = some s)
    (hnew : skip s = true ∨ s ∈ closed ∨ above = some s) :
    Scanned succ skip closed above ((b, k + 1) :: stack) := by
  refine ⟨fun x hx => ?_, h.2⟩
  rw [take_add_one, hs, mem_append] at hx
  rcases hx with hx | hx
  · rcases h.1 x hx with hskip | hclosed | habove
    · exact .inl hskip
    · exact .inr (.inl hclosed)
    · cases habove
  · obtain rfl : x = s := by simpa using hx
    exact hnew

lemma acyclicLoop_acc {fuel : Nat} {opened : List Nat}
    (hclosed : ∀ u ∈ closed, Acc (InnerEdge succ skip) u)
    (hscanned : Scanned succ skip closed none stack)
    (h : acyclicLoop succ skip fuel opened closed stack = some true) :
    ∀ u ∈ stack.map Prod.fst, Acc (InnerEdge succ skip) u := by
  induction fuel generalizing opened closed stack with
  | zero =>
    cases stack with
    | nil => exact nofun
    | cons fr stack => cases h
  | succ fuel ih =>
    cases stack with
    | nil => exact nofun
    | cons fr stack =>
      obtain ⟨b, k⟩ := fr
      unfold acyclicLoop at h
      split at h
      next hend =>
        -- every neighbour of `b` was scanned
        have hacc : Acc (InnerEdge succ skip) b := by
          refine .intro b fun v hv => hclosed v ?_
          have hall : (succ b).take k = succ b :=
            take_of_length_le (getElem?_eq_none_iff.1 hend)
          rcases hscanned.1 v (hall.symm ▸ hv.1) with hskip | hmem | habove
          · rw [hv.2] at hskip
            cases hskip
          · exact hmem
          · cases habove
        have hrest := ih (forall_mem_cons.2 ⟨hacc, hclosed⟩) hscanned.2.popped h
        exact forall_mem_cons.2 ⟨hacc, hrest⟩
      next s hs =>
        split at h
        next hdone =>
          rw [Bool.or_eq_true, contains_iff_mem] at hdone
          have hnext : Scanned succ skip closed none ((b, k + 1) :: stack) :=
            hscanned.advance hs (hdone.imp_right .inl)
          have hrest := ih hclosed hnext h
          exact hrest
        · split at h
          · cases h
          · have hopen : Scanned succ skip closed none ((s, 0) :: (b, k + 1) :: stack) :=
              ⟨by simp, hscanned.advance hs (.inr (.inr rfl))⟩
            exact fun u hu => ih hclosed hopen h u (mem_cons_of_mem _ hu)

end Arandu.Library
