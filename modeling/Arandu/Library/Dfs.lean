import Arandu.Library.Dominance
import Arandu.Library.Worklist
import Mathlib.Algebra.BigOperators.Group.Finset.Basic

/-!
# Depth-first search with an explicit stack

The nodes are `0, …, n - 1`; successors outside that range are skipped. `dfsLoop` keeps
suspended frames `(node, next successor index)` on a stack and emits a node when its frame
is exhausted, so the accumulated list is the reverse post-order of the search.

The result lists exactly the reachable nodes, each once, starting with the entry, and
every other node stands after one of its predecessors.
-/

namespace Arandu.Library

open List

variable (n : Nat) (succ : Nat → List Nat)

/-- One frame at a time: advance to the next successor, or emit the node. -/
def dfsLoop : Nat → List Nat → List Nat → List (Nat × Nat) → List Nat
  | 0, _, acc, _ => acc
  | _ + 1, _, acc, [] => acc
  | fuel + 1, visited, acc, (b, k) :: stack =>
    match (succ b)[k]? with
    | some s =>
      if s < n ∧ s ∉ visited then
        dfsLoop fuel (s :: visited) acc ((s, 0) :: (b, k + 1) :: stack)
      else dfsLoop fuel visited acc ((b, k + 1) :: stack)
    | none => dfsLoop fuel visited (b :: acc) stack

/-- Every node is entered and left once and every successor is looked at once. -/
def dfsFuel : Nat := ∑ b ∈ Finset.range n, ((succ b).length + 1)

/-- Reverse post-order from node `0`. -/
def dfsOrder : List Nat := dfsLoop n succ (dfsFuel n succ) [0] [] [(0, 0)]

/-- Edges the search follows. -/
def DfsEdge (m s : Nat) : Prop := s ∈ succ m ∧ s < n

def StackPath : List (Nat × Nat) → Prop
  | [] => True
  | [(b, _)] => b = 0
  | (b, _) :: (m, k) :: rest => b ∈ succ m ∧ StackPath ((m, k) :: rest)

structure DfsInv (visited acc : List Nat) (stack : List (Nat × Nat)) : Prop where
  nodup : (stack.map Prod.fst ++ acc).Nodup
  visited_iff : ∀ x, x ∈ visited ↔ x ∈ stack.map Prod.fst ∨ x ∈ acc
  reachable : ∀ x ∈ visited, Reachable (DfsEdge n succ) 0 x
  entry : 0 ∈ visited
  bound : ∀ x ∈ visited, x < n
  closed : ∀ b ∈ acc, ∀ s ∈ succ b, s < n → s ∈ visited
  scanned : ∀ b k, (b, k) ∈ stack → ∀ s ∈ (succ b).take k, s < n → s ∈ visited
  path : StackPath succ stack
  parent : ∀ pre b post, acc = pre ++ b :: post →
    b = 0 ∨ (∃ m ∈ pre, b ∈ succ m) ∨ (∃ m ∈ stack.map Prod.fst, b ∈ succ m)

/-- Iterations still to come. -/
def dfsMeasure (visited : List Nat) (stack : List (Nat × Nat)) : Nat :=
  (∑ b ∈ (Finset.range n).filter (· ∉ visited), ((succ b).length + 1)) +
    (stack.map fun fr => (succ fr.1).length - fr.2 + 1).sum

variable {n succ} {rest : List (Nat × Nat)}

/-! ## One iteration -/

lemma StackPath.tail {fr : Nat × Nat} (h : StackPath succ (fr :: rest)) : StackPath succ rest := by
  cases rest with
  | nil => trivial
  | cons fr' rest => exact h.2

variable {b k : Nat}

lemma StackPath.advance {k' : Nat}
    (h : StackPath succ ((b, k) :: rest)) : StackPath succ ((b, k') :: rest) := by
  cases rest with
  | nil => exact h
  | cons fr' rest => exact h

variable {stack : List (Nat × Nat)} {visited acc : List Nat} {s fuel : Nat}

section

variable (h : DfsInv n succ visited acc ((b, k) :: stack))
include h

/-- Successor `k` of the node on top has been looked at too. -/
lemma DfsInv.scanned_succ {visited' : List Nat} (hs : (succ b)[k]? = some s)
    (hsub : visited ⊆ visited') (hseen : s < n → s ∈ visited') : ∀ b' k',
      (b', k') ∈ (b, k + 1) :: stack → ∀ s' ∈ (succ b').take k', s' < n → s' ∈ visited' := by
  intro b' k' hmem s' hs' hlt
  rcases mem_cons.1 hmem with heq | hmem
  · cases heq
    rw [take_add_one, hs, mem_append] at hs'
    rcases hs' with hs' | hs'
    · exact hsub (h.scanned b k mem_cons_self s' hs' hlt)
    · obtain rfl : s' = s := by simpa using hs'
      exact hseen hlt
  · exact hsub (h.scanned b' k' (mem_cons_of_mem _ hmem) s' hs' hlt)

lemma DfsInv.skip (hs : (succ b)[k]? = some s) (hskip : ¬ (s < n ∧ s ∉ visited)) :
    DfsInv n succ visited acc ((b, k + 1) :: stack) where
  nodup := h.nodup
  visited_iff := h.visited_iff
  reachable := h.reachable
  entry := h.entry
  bound := h.bound
  closed := h.closed
  scanned := by
    refine h.scanned_succ hs (Subset.refl _) fun hlt => ?_
    by_contra hnot
    exact hskip ⟨hlt, hnot⟩
  path := h.path.advance
  parent := h.parent

lemma DfsInv.push (hs : (succ b)[k]? = some s) (hlt : s < n) (hnew : s ∉ visited) :
    DfsInv n succ (s :: visited) acc ((s, 0) :: (b, k + 1) :: stack) where
  nodup := by
    have hnot : s ∉ (b :: stack.map Prod.fst) ++ acc := by
      intro hmem
      exact hnew ((h.visited_iff s).2 (mem_append.1 hmem))
    simpa using nodup_cons.2 ⟨hnot, h.nodup⟩
  visited_iff := by
    intro x
    have := h.visited_iff x
    simp only [map_cons, mem_cons] at this ⊢
    tauto
  reachable := by
    have hb : Reachable (DfsEdge n succ) 0 b :=
      h.reachable b ((h.visited_iff b).2 (.inl mem_cons_self))
    exact forall_mem_cons.2 ⟨hb.step ⟨mem_of_getElem? hs, hlt⟩, h.reachable⟩
  entry := mem_cons_of_mem _ h.entry
  bound := forall_mem_cons.2 ⟨hlt, h.bound⟩
  closed := fun b' hb' s' hs' hlt' => mem_cons_of_mem _ (h.closed b' hb' s' hs' hlt')
  scanned := by
    intro b' k' hmem s' hs' hlt'
    rcases mem_cons.1 hmem with heq | hmem
    · cases heq
      simp at hs'
    · exact h.scanned_succ hs (subset_cons_self _ _) (fun _ => mem_cons_self) b' k' hmem s' hs' hlt'
  path := ⟨mem_of_getElem? hs, h.path.advance⟩
  parent := by
    intro pre b' post heq
    rcases h.parent pre b' post heq with h0 | hpre | ⟨m, hm, hedge⟩
    · exact .inl h0
    · exact .inr (.inl hpre)
    · exact .inr (.inr ⟨m, mem_cons_of_mem _ hm, hedge⟩)

lemma DfsInv.pop (hs : (succ b)[k]? = none) : DfsInv n succ visited (b :: acc) stack where
  nodup := by
    have := h.nodup
    rw [map_cons, cons_append, ← perm_middle.nodup_iff] at this
    exact this
  visited_iff := by
    intro x
    have := h.visited_iff x
    simp only [map_cons, mem_cons] at this ⊢
    tauto
  reachable := h.reachable
  entry := h.entry
  bound := h.bound
  closed := by
    refine forall_mem_cons.2 ⟨fun s' hs' hlt' => ?_, h.closed⟩
    have hlen : (succ b).length ≤ k := getElem?_eq_none_iff.1 hs
    exact h.scanned b k mem_cons_self s' (by rwa [take_of_length_le hlen]) hlt'
  scanned := fun b' k' hmem => h.scanned b' k' (mem_cons_of_mem _ hmem)
  path := h.path.tail
  parent := by
    intro pre b' post heq
    cases pre with
    | nil =>
      -- the emitted node itself: its parent is the frame below
      cases heq
      cases stack with
      | nil => exact .inl h.path
      | cons fr rest => exact .inr (.inr ⟨fr.1, by simp, h.path.1⟩)
    | cons c pre =>
      cases heq
      rcases h.parent pre b' post rfl with h0 | ⟨m, hm, hedge⟩ | ⟨m, hm, hedge⟩
      · exact .inl h0
      · exact .inr (.inl ⟨m, mem_cons_of_mem _ hm, hedge⟩)
      · rcases mem_cons.1 hm with hmb | hm
        · exact .inr (.inl ⟨m, by simp [hmb], hedge⟩)
        · exact .inr (.inr ⟨m, hm, hedge⟩)

end

/-! ## The measure -/

lemma dfsMeasure_advance (hs : (succ b)[k]? = some s) :
    dfsMeasure n succ visited ((b, k + 1) :: stack) + 1 =
      dfsMeasure n succ visited ((b, k) :: stack) := by
  have hk : k < (succ b).length := (List.getElem?_eq_some_iff.1 hs).1
  simp only [dfsMeasure, map_cons, sum_cons]
  omega

lemma sum_unvisited_cons (g : Nat → Nat) (hlt : s < n) (hnew : s ∉ visited) :
    g s + ∑ b ∈ (Finset.range n).filter (· ∉ s :: visited), g b =
      ∑ b ∈ (Finset.range n).filter (· ∉ visited), g b := by
  have herase : (Finset.range n).filter (· ∉ s :: visited) =
      ((Finset.range n).filter (· ∉ visited)).erase s := by
    ext x
    simp only [Finset.mem_filter, mem_cons, not_or, Finset.mem_erase]
    tauto
  rw [herase]
  exact Finset.add_sum_erase _ g (by simp [hlt, hnew])

lemma dfsMeasure_visit (hlt : s < n) (hnew : s ∉ visited) :
    dfsMeasure n succ (s :: visited) ((s, 0) :: stack) = dfsMeasure n succ visited stack := by
  have hsum := sum_unvisited_cons (fun b => (succ b).length + 1) hlt hnew
  simp only [dfsMeasure, map_cons, sum_cons]
  omega

lemma dfsMeasure_pop :
    dfsMeasure n succ visited stack < dfsMeasure n succ visited ((b, k) :: stack) := by
  simp only [dfsMeasure, map_cons, sum_cons]
  omega

/-! ## The whole search -/

/-- With enough fuel the search ends with no suspended frame. -/
lemma dfsLoop_inv (h : DfsInv n succ visited acc stack)
    (hfuel : dfsMeasure n succ visited stack ≤ fuel) :
    ∃ visited', DfsInv n succ visited' (dfsLoop n succ fuel visited acc stack) [] := by
  induction fuel generalizing visited acc stack with
  | zero =>
    cases stack with
    | nil => exact ⟨visited, h⟩
    | cons fr stack =>
      have : dfsMeasure n succ visited stack < dfsMeasure n succ visited (fr :: stack) :=
        dfsMeasure_pop
      omega
  | succ fuel ih =>
    cases stack with
    | nil => exact ⟨visited, h⟩
    | cons fr stack =>
      obtain ⟨b, k⟩ := fr
      unfold dfsLoop
      split
      next s hs =>
        have hadv : dfsMeasure n succ visited ((b, k + 1) :: stack) + 1 =
            dfsMeasure n succ visited ((b, k) :: stack) := dfsMeasure_advance hs
        split
        next hnew =>
          refine ih (h.push hs hnew.1 hnew.2) ?_
          rw [dfsMeasure_visit hnew.1 hnew.2]
          omega
        next hskip => exact ih (h.skip hs hskip) (by omega)
      next hs =>
        have : dfsMeasure n succ visited stack < dfsMeasure n succ visited ((b, k) :: stack) :=
          dfsMeasure_pop
        exact ih (h.pop hs) (by omega)

lemma dfsInv_start (hn : 0 < n) : DfsInv n succ [0] [] [(0, 0)] where
  nodup := by simp
  visited_iff := by simp
  reachable := by
    intro x hx
    rw [mem_singleton.1 hx]
    exact Reachable.start
  entry := by simp
  bound := by simpa using hn
  closed := by simp
  scanned := by
    intro b k hmem s hs
    cases mem_singleton.1 hmem
    simp at hs
  path := rfl
  parent := by simp

lemma dfsMeasure_start (hn : 0 < n) : dfsMeasure n succ [0] [(0, 0)] = dfsFuel n succ := by
  rw [dfsMeasure_visit hn not_mem_nil]
  simp [dfsMeasure, dfsFuel]

lemma dfsOrder_inv (hn : 0 < n) : ∃ visited, DfsInv n succ visited (dfsOrder n succ) [] :=
  dfsLoop_inv (dfsInv_start hn) (dfsMeasure_start hn).le

lemma dfsOrder_nodup (hn : 0 < n) : (dfsOrder n succ).Nodup := by
  obtain ⟨visited, h⟩ := dfsOrder_inv hn
  simpa using h.nodup

variable {x : Nat}

lemma mem_dfsOrder (hn : 0 < n) : x ∈ dfsOrder n succ ↔ Reachable (DfsEdge n succ) 0 x := by
  obtain ⟨visited, h⟩ := dfsOrder_inv hn
  have hvis : ∀ y, y ∈ visited ↔ y ∈ dfsOrder n succ := by simpa using h.visited_iff
  constructor
  · intro hx
    exact h.reachable x ((hvis x).2 hx)
  · rintro ⟨p, hp⟩
    induction hp with
    | start => exact (hvis 0).1 h.entry
    | step _ hedge ih => exact (hvis _).1 (h.closed _ ih _ hedge.1 hedge.2)

lemma lt_of_mem_dfsOrder (hn : 0 < n) (hx : x ∈ dfsOrder n succ) : x < n := by
  obtain ⟨visited, h⟩ := dfsOrder_inv hn
  exact h.bound x ((h.visited_iff x).2 (.inr hx))

lemma dfsOrder_parent (hn : 0 < n) {pre post : List Nat}
    (heq : dfsOrder n succ = pre ++ b :: post) : b = 0 ∨ ∃ m ∈ pre, b ∈ succ m := by
  obtain ⟨visited, h⟩ := dfsOrder_inv hn
  rcases h.parent pre b post heq with h0 | hpre | ⟨m, hm, -⟩
  · exact .inl h0
  · exact .inr hpre
  · simp at hm

lemma dfsOrder_head (hn : 0 < n) : ∃ rest, dfsOrder n succ = 0 :: rest := by
  have hmem : 0 ∈ dfsOrder n succ := (mem_dfsOrder hn).2 Reachable.start
  cases hord : dfsOrder n succ with
  | nil => simp [hord] at hmem
  | cons b rest =>
    rcases dfsOrder_parent hn (hord.trans (nil_append _).symm) with rfl | ⟨m, hm, -⟩
    · exact ⟨rest, rfl⟩
    · simp at hm

/-! ## Flood fill

The cheaper search that only collects the reachable nodes: nodes are marked when they are
taken from the stack, and all their successors are pushed. -/

variable (n succ) in
/-- Take a node from the stack; mark it and push its successors unless it was marked. -/
def floodLoop : Nat → List Nat → List Nat → List Nat
  | 0, visited, _ => visited
  | _ + 1, visited, [] => visited
  | fuel + 1, visited, b :: stack =>
    if n ≤ b ∨ b ∈ visited then floodLoop fuel visited stack
    else floodLoop fuel (b :: visited) ((succ b).reverse ++ stack)

variable (n succ) in
/-- The nodes reachable from `0`. -/
def floodSet : List Nat :=
  floodLoop n succ (1 + ∑ b ∈ Finset.range n, (succ b).length) [] [0]

variable (n succ) in
structure FloodInv (start : Nat) (visited stack : List Nat) : Prop where
  reachable : ∀ x ∈ visited, Reachable (DfsEdge n succ) start x
  bound : ∀ x ∈ visited, x < n
  pending : ∀ x ∈ stack, x < n → Reachable (DfsEdge n succ) start x
  entry : start ∈ visited ∨ start ∈ stack
  closed : ∀ b ∈ visited, ∀ s ∈ succ b, s < n → s ∈ visited ∨ s ∈ stack

variable (n succ) in
def floodMeasure (visited stack : List Nat) : Nat :=
  stack.length + ∑ b ∈ (Finset.range n).filter (· ∉ visited), (succ b).length

variable {start : Nat} {stack : List Nat}

lemma FloodInv.skip (hn : start < n) (h : FloodInv n succ start visited (b :: stack))
    (hskip : n ≤ b ∨ b ∈ visited) : FloodInv n succ start visited stack := by
  have hknown {x : Nat} (hlt : x < n) (hx : x ∈ visited ∨ x ∈ b :: stack) :
      x ∈ visited ∨ x ∈ stack := by
    rcases hx with hx | hx
    · exact .inl hx
    rcases mem_cons.1 hx with rfl | hx
    · exact .inl (hskip.resolve_left (by omega))
    · exact .inr hx
  exact ⟨h.reachable, h.bound, fun x hx => h.pending x (mem_cons_of_mem _ hx), hknown hn h.entry,
    fun x hx s hs hlt => hknown hlt (h.closed x hx s hs hlt)⟩

lemma FloodInv.visit (h : FloodInv n succ start visited (b :: stack)) (hlt : b < n) :
    FloodInv n succ start (b :: visited) ((succ b).reverse ++ stack) := by
  have hb : Reachable (DfsEdge n succ) start b := h.pending b mem_cons_self hlt
  have hknown {x : Nat} (hx : x ∈ visited ∨ x ∈ b :: stack) :
      x ∈ b :: visited ∨ x ∈ (succ b).reverse ++ stack := by
    rcases hx with hx | hx
    · exact .inl (mem_cons_of_mem _ hx)
    rcases mem_cons.1 hx with rfl | hx
    · exact .inl mem_cons_self
    · exact .inr (mem_append_right _ hx)
  constructor
  · exact forall_mem_cons.2 ⟨hb, h.reachable⟩
  · exact forall_mem_cons.2 ⟨hlt, h.bound⟩
  · intro x hx hxn
    rcases mem_append.1 hx with hx | hx
    · exact hb.step ⟨mem_reverse.1 hx, hxn⟩
    · exact h.pending x (mem_cons_of_mem _ hx) hxn
  · exact hknown h.entry
  · intro x hx s hs hsn
    rcases mem_cons.1 hx with rfl | hx
    · exact .inr (mem_append_left _ (mem_reverse.2 hs))
    · exact hknown (h.closed x hx s hs hsn)

lemma floodMeasure_visit (hlt : b < n) (hnew : b ∉ visited) :
    floodMeasure n succ (b :: visited) ((succ b).reverse ++ stack) + 1 =
      floodMeasure n succ visited (b :: stack) := by
  have hsum := sum_unvisited_cons (fun b => (succ b).length) hlt hnew
  simp only [floodMeasure, length_append, length_reverse, length_cons]
  omega

lemma floodLoop_inv (hn : start < n) (h : FloodInv n succ start visited stack)
    (hfuel : floodMeasure n succ visited stack ≤ fuel) :
    FloodInv n succ start (floodLoop n succ fuel visited stack) [] := by
  induction fuel generalizing visited stack with
  | zero =>
    cases stack with
    | nil => exact h
    | cons b stack =>
      simp only [floodMeasure, length_cons] at hfuel
      omega
  | succ fuel ih =>
    cases stack with
    | nil => exact h
    | cons b stack =>
      unfold floodLoop
      split
      next hskip =>
        refine ih (h.skip hn hskip) ?_
        simp only [floodMeasure, length_cons] at hfuel ⊢
        omega
      next hnew =>
        rw [not_or, not_le] at hnew
        have hm : floodMeasure n succ (b :: visited) ((succ b).reverse ++ stack) + 1 =
            floodMeasure n succ visited (b :: stack) := floodMeasure_visit hnew.1 hnew.2
        exact ih (h.visit hnew.1) (by omega)

lemma mem_floodLoop (hn : start < n) :
    x ∈ floodLoop n succ (1 + ∑ b ∈ Finset.range n, (succ b).length) [] [start] ↔
      Reachable (DfsEdge n succ) start x := by
  have hstart : FloodInv n succ start [] [start] := by
    refine ⟨by simp, by simp, ?_, by simp, by simp⟩
    intro x hx _
    rw [mem_singleton.1 hx]
    exact Reachable.start
  have h : FloodInv n succ start
      (floodLoop n succ (1 + ∑ b ∈ Finset.range n, (succ b).length) [] [start]) [] :=
    floodLoop_inv hn hstart (by simp [floodMeasure])
  constructor
  · exact h.reachable x
  · rintro ⟨p, hp⟩
    induction hp with
    | start => simpa using h.entry
    | step _ hedge ih => simpa using h.closed _ ih _ hedge.1 hedge.2

lemma mem_floodSet (hn : 0 < n) : x ∈ floodSet n succ ↔ Reachable (DfsEdge n succ) 0 x :=
  mem_floodLoop hn

/-! ## Flood fill with a queue -/

variable {queue : List Nat}

variable (n succ) in
def floodVisit (visited : List Nat) (b : Nat) : List Nat × List Nat :=
  if n ≤ b ∨ b ∈ visited then (visited, []) else (b :: visited, succ b)

variable (n succ) in
/-- The nodes reachable from `0`, taken from a queue. -/
def floodQueue : Option (List Nat) :=
  worklist (floodVisit n succ) (1 + ∑ b ∈ Finset.range n, (succ b).length) [0] []

lemma floodVisit_pays (visited : List Nat) (b : Nat) : (floodVisit n succ visited b).2.length +
    floodMeasure n succ (floodVisit n succ visited b).1 [] ≤ floodMeasure n succ visited [] := by
  unfold floodVisit
  split_ifs with hskip
  · simp
  · rw [not_or, not_le] at hskip
    have hsum := sum_unvisited_cons (fun b => (succ b).length) hskip.1 hskip.2
    simp only [floodMeasure, length_nil]
    omega

lemma FloodInv.floodVisit (hn : 0 < n) (h : FloodInv n succ 0 visited (b :: queue)) :
    FloodInv n succ 0 (floodVisit n succ visited b).1
    (queue ++ (floodVisit n succ visited b).2) := by
  unfold Library.floodVisit
  split_ifs with hskip
  · simpa using h.skip hn hskip
  · rw [not_or, not_le] at hskip
    have hv : FloodInv n succ 0 (b :: visited) ((succ b).reverse ++ queue) := h.visit hskip.1
    have hmem (x : Nat) : x ∈ (succ b).reverse ++ queue ↔ x ∈ queue ++ succ b := by
      simp [or_comm]
    exact ⟨hv.reachable, hv.bound, fun x hx => hv.pending x ((hmem x).2 hx),
      hv.entry.imp_right (hmem 0).1, fun b hb s hs hlt =>
        (hv.closed b hb s hs hlt).imp_right (hmem s).1⟩

lemma exists_floodQueue (hn : 0 < n) : ∃ visited, floodQueue n succ = some visited ∧
    ∀ x, x ∈ visited ↔ Reachable (DfsEdge n succ) 0 x := by
  have hstart : FloodInv n succ 0 [] [0] :=
    ⟨by simp, by simp, fun x hx _ => mem_singleton.1 hx ▸ .start, by simp, by simp⟩
  have hsome : (floodQueue n succ).isSome :=
    worklist_isSome (fun _ => True) (floodMeasure n succ · [])
      (fun visited b _ => ⟨trivial, floodVisit_pays visited b⟩) trivial (by simp [floodMeasure])
  obtain ⟨visited, hvisited⟩ := Option.isSome_iff_exists.1 hsome
  have h : FloodInv n succ 0 visited [] :=
    worklist_induction (fun _ _ _ h => h.floodVisit hn) hstart hvisited
  refine ⟨visited, hvisited, fun x => ⟨h.reachable x, ?_⟩⟩
  rintro ⟨p, hp⟩
  induction hp with
  | start => simpa using h.entry
  | step _ hedge ih => simpa using h.closed _ ih _ hedge.1 hedge.2

end Arandu.Library
