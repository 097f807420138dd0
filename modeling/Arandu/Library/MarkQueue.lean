import Mathlib.Data.List.Basic

/-!
# Mark queues

The first-in first-out marking loop of a mark-and-sweep analysis: a table of marks and a
queue of marked entries whose dependencies are still to be marked. Every entry enters the
queue at most once, when its mark is set, so a table of `n` entries needs `n` rounds.

The loop ends with the least set of marks that contains the seeds and is closed under the
dependencies: `marked_seed`, `marked_dep` and `marked_induction`.
-/

namespace Arandu.Library

open List

structure MarkQueue where
  live : List Bool
  queue : List Nat
deriving DecidableEq, Repr

variable {m : MarkQueue} {fuel i j : Nat} {is : List Nat}

namespace MarkQueue

/-- `n` unmarked entries. -/
def empty (n : Nat) : MarkQueue := ⟨List.replicate n false, []⟩

/-- An entry outside the table has no mark to set. -/
def marked (m : MarkQueue) (i : Nat) : Bool := m.live.getD i false

def mark (m : MarkQueue) (i : Nat) : MarkQueue :=
  if m.live.getD i true then m else ⟨m.live.set i true, m.queue ++ [i]⟩

def markAll (m : MarkQueue) (is : List Nat) : MarkQueue := is.foldl mark m

def propagate (deps : Nat → List Nat) : Nat → MarkQueue → MarkQueue
  | 0, m => m
  | fuel + 1, m =>
    match m.queue with
    | [] => m
    | i :: rest => propagate deps fuel (markAll ⟨m.live, rest⟩ (deps i))

/-- Rounds still to come: queued entries and entries that may still be queued. -/
def remaining (m : MarkQueue) : Nat := m.queue.length + m.live.count false

/-! ## Marking -/

/-- What marking does: the entries that get their mark now join the queue. -/
structure Marks (is : List Nat) (m m' : MarkQueue) (new : List Nat) : Prop where
  queue : m'.queue = m.queue ++ new
  marked : ∀ j, m'.marked j = true ↔ m.marked j = true ∨ j ∈ new
  all : ∀ j ∈ is, j < m.live.length → m'.marked j = true
  only : ∀ j ∈ new, j ∈ is
  length : m'.live.length = m.live.length
  remaining : m'.remaining = m.remaining

lemma marks_mark (m : MarkQueue) (i : Nat) : ∃ new, Marks [i] m (m.mark i) new := by
  unfold mark
  split
  next hm =>
    refine ⟨[], (append_nil _).symm, by simp, fun j hj hlt => ?_, by simp, rfl, rfl⟩
    rw [mem_singleton.1 hj] at hlt ⊢
    simpa [marked, hlt] using hm
  next hm =>
    have hlt : i < m.live.length := by
      by_contra hge
      simp [getElem?_eq_none (Nat.le_of_not_lt hge)] at hm
    have hmarked (j : Nat) : marked ⟨m.live.set i true, m.queue ++ [i]⟩ j = true ↔
        m.marked j = true ∨ j ∈ [i] := by
      by_cases hj : j = i
      · subst hj
        simp [marked, hlt]
      · simp [marked, getElem?_set_ne (Ne.symm hj), hj]
    refine ⟨[i], rfl, hmarked, fun j hj _ => (hmarked j).2 (.inr hj), fun j hj => hj,
      length_set .., ?_⟩
    -- a mark moves one entry from the unmarked ones to the queue
    have hget : m.live[i] = false := by
      simpa [getElem?_eq_getElem hlt] using hm
    have hcount := count_set (a := true) (b := false) (l := m.live) hlt
    have hpos : 0 < m.live.count false := count_pos_iff.2 (hget ▸ getElem_mem hlt)
    simp only [remaining, length_append, length_singleton]
    simp only [hget] at hcount
    simp at hcount
    omega

lemma marks_markAll (m : MarkQueue) (is : List Nat) : ∃ new, Marks is m (m.markAll is) new := by
  induction is generalizing m with
  | nil => exact ⟨[], (append_nil _).symm, by simp [markAll], by simp, by simp, rfl, rfl⟩
  | cons i is ih =>
    obtain ⟨new, h⟩ := marks_mark m i
    obtain ⟨new', h'⟩ := ih (m.mark i)
    refine ⟨new ++ new', ?_, fun j => ?_, forall_mem_cons.2 ⟨fun hlt => ?_, fun j hj hlt => ?_⟩,
      forall_mem_append.2 ⟨fun j hj => ?_, fun j hj => mem_cons_of_mem _ (h'.only j hj)⟩,
      h'.length.trans h.length, h'.remaining.trans h.remaining⟩
    · exact h'.queue.trans (by rw [h.queue, append_assoc])
    · exact (h'.marked j).trans (by rw [h.marked, mem_append, or_assoc])
    · exact (h'.marked i).2 (.inl (h.all i (mem_singleton_self i) hlt))
    · exact h'.all j hj (h.length ▸ hlt)
    · exact mem_cons.2 (.inl (mem_singleton.1 (h.only j hj)))

/-! ## The loop -/

section Propagate

variable {deps : Nat → List Nat} {rest new : List Nat} {m' : MarkQueue}

lemma propagate_invariant {I : MarkQueue → Prop}
    (hround : ∀ m i rest m' new, I m → m.queue = i :: rest →
      Marks (deps i) ⟨m.live, rest⟩ m' new → I m') (h : I m) : I (propagate deps fuel m) := by
  induction fuel generalizing m with
  | zero => exact h
  | succ fuel ih =>
    unfold propagate
    split
    · exact h
    next i rest hqueue =>
      obtain ⟨new, hmarks⟩ := marks_markAll ⟨m.live, rest⟩ (deps i)
      exact ih (hround m i rest _ new h hqueue hmarks)

lemma queue_propagate (hfuel : m.remaining ≤ fuel) : (propagate deps fuel m).queue = [] := by
  induction fuel generalizing m with
  | zero =>
    unfold remaining at hfuel
    have hempty : m.queue.length = 0 := by omega
    exact eq_nil_of_length_eq_zero hempty
  | succ fuel ih =>
    unfold propagate
    split
    next hqueue => exact hqueue
    next i rest hqueue =>
      obtain ⟨new, hmarks⟩ := marks_markAll ⟨m.live, rest⟩ (deps i)
      apply ih
      rw [hmarks.remaining]
      simp only [remaining, hqueue, length_cons] at hfuel ⊢
      omega

/-- A marked entry is queued, or its dependencies are marked. -/
def Closing (deps : Nat → List Nat) (m : MarkQueue) : Prop :=
  ∀ i, m.marked i = true → i ∈ m.queue ∨ ∀ j ∈ deps i, j < m.live.length → m.marked j = true

lemma Closing.round (h : Closing deps m) (hqueue : m.queue = i :: rest)
    (hm : Marks (deps i) ⟨m.live, rest⟩ m' new) : Closing deps m' := by
  intro j hj
  rw [hm.queue, hm.length]
  rcases (hm.marked j).1 hj with hold | hnew
  · rcases h j hold with hmem | hdeps
    · rw [hqueue] at hmem
      rcases mem_cons.1 hmem with rfl | hmem
      · exact .inr hm.all
      · exact .inl (mem_append_left _ hmem)
    · exact .inr fun k hk hlt => (hm.marked k).2 (.inl (hdeps k hk hlt))
  · exact .inl (mem_append_right _ hnew)

/-! ## Marking from seeds -/

variable {n : Nat} {seeds : List Nat}

lemma not_marked_empty (n i : Nat) : (empty n).marked i = false := by
  simp only [marked, empty, List.getD, getElem?_replicate]
  split <;> rfl

lemma marked_seed (hi : i ∈ seeds) (hlt : i < n) :
    (propagate deps n ((empty n).markAll seeds)).marked i = true := by
  obtain ⟨new, h⟩ := marks_markAll (empty n) seeds
  apply propagate_invariant (I := fun m => m.marked i = true)
  · exact fun m k rest m' new hold _ hm => (hm.marked i).2 (.inl hold)
  · exact h.all i hi (by simpa [empty] using hlt)

lemma marked_dep
    (hi : (propagate deps n ((empty n).markAll seeds)).marked i = true) (hj : j ∈ deps i)
    (hlt : j < n) : (propagate deps n ((empty n).markAll seeds)).marked j = true := by
  obtain ⟨new, h⟩ := marks_markAll (empty n) seeds
  have hinv : Closing deps (propagate deps n ((empty n).markAll seeds)) ∧
      (propagate deps n ((empty n).markAll seeds)).live.length = n := by
    apply propagate_invariant (I := fun m => Closing deps m ∧ m.live.length = n)
    · exact fun m k rest m' new hm hqueue hmarks =>
        ⟨hm.1.round hqueue hmarks, hmarks.length.trans hm.2⟩
    · refine ⟨fun i hi => .inl ?_, h.length.trans length_replicate⟩
      rw [h.queue]
      exact mem_append_right _ (((h.marked i).1 hi).resolve_left (by simp [not_marked_empty]))
  rcases hinv.1 i hi with hmem | hdeps
  · rw [queue_propagate (by rw [h.remaining]; simp [remaining, empty])] at hmem
    cases hmem
  · exact hdeps j hj (hinv.2.symm ▸ hlt)

/-- Nothing else is marked. -/
lemma marked_induction {P : Nat → Prop} (hseeds : ∀ i ∈ seeds, P i)
    (hdeps : ∀ i, P i → ∀ j ∈ deps i, P j)
    (hi : (propagate deps n ((empty n).markAll seeds)).marked i = true) : P i := by
  obtain ⟨new, h⟩ := marks_markAll (empty n) seeds
  refine propagate_invariant (I := fun m => ∀ i, m.marked i = true ∨ i ∈ m.queue → P i) ?_ ?_ i
    (.inl hi)
  · intro m k rest m' new hm hqueue hmarks j hj
    have hnew (hj : j ∈ new) : P j :=
      hdeps k (hm k (.inr (by simp [hqueue]))) j (hmarks.only j hj)
    rw [hmarks.marked, hmarks.queue, mem_append] at hj
    rcases hj with (hj | hj) | hj | hj
    · exact hm j (.inl hj)
    · exact hnew hj
    · exact hm j (.inr (by rw [hqueue]; exact mem_cons_of_mem _ hj))
    · exact hnew hj
  · intro j hj
    rw [h.marked, h.queue, not_marked_empty] at hj
    exact hseeds j (h.only j (by simpa [empty] using hj))

end Propagate

end MarkQueue

end Arandu.Library
