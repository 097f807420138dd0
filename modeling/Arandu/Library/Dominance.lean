import Mathlib.Data.List.Basic

/-!
# Dominance in a rooted graph

A graph is an arbitrary edge relation with a distinguished entry. A node `d` dominates
`n` when every walk from the entry to `n` passes through `d`. The module collects what
dataflow arguments use: dominance is a partial order on reachable nodes, a dominator of a
node is the node itself or a dominator of each of its predecessors, and any table of
parents that is consistent with the edges names dominators only.
-/

namespace Arandu.Library

open List

variable {α : Type*}

/-- `Walk edge entry n p`: `p` lists the nodes of a walk from `entry` to `n`, last first. -/
inductive Walk (edge : α → α → Prop) (entry : α) : α → List α → Prop where
  | start : Walk edge entry entry [entry]
  | step {m n : α} {p : List α} (hwalk : Walk edge entry m p) (hedge : edge m n) :
      Walk edge entry n (n :: p)

/-- `n` is the end of some walk. -/
def Reachable (edge : α → α → Prop) (entry n : α) : Prop := ∃ p, Walk edge entry n p

/-- Every walk to `n` visits `d`. -/
def Dominates (edge : α → α → Prop) (entry d n : α) : Prop :=
  ∀ p, Walk edge entry n p → d ∈ p

variable {edge : α → α → Prop} {entry : α}

/-! ## Walks -/

lemma Reachable.start : Reachable edge entry entry := ⟨_, .start⟩

variable {n a m b c : α}

lemma Reachable.step (h : Reachable edge entry m) (hedge : edge m n) : Reachable edge entry n := by
  obtain ⟨p, hp⟩ := h
  exact ⟨_, hp.step hedge⟩

lemma Reachable.trans (hab : Reachable edge a b) (hbc : Reachable edge b c) :
    Reachable edge a c := by
  obtain ⟨p, hp⟩ := hbc
  induction hp with
  | start => exact hab
  | step _ hedge ih => exact ih.step hedge

variable {edge' : α → α → Prop} {p : List α}

lemma Walk.avoid (hp : Walk edge entry m p)
    (ha : a ∉ p) (hsub : ∀ x y, edge' x y → edge x y ∧ y ≠ a) (h : Reachable edge' m n) :
    ∃ q, Walk edge entry n q ∧ a ∉ q := by
  obtain ⟨r, hr⟩ := h
  induction hr with
  | start => exact ⟨p, hp, ha⟩
  | @step x y r _ hxy ih =>
    obtain ⟨q, hq, haq⟩ := ih
    obtain ⟨hedge, hne⟩ := hsub x y hxy
    exact ⟨y :: q, hq.step hedge, not_mem_cons_of_ne_of_not_mem hne.symm haq⟩

section

variable (hp : Walk edge entry n p)
include hp

lemma Walk.suffix {d : α} (hd : d ∈ p) : ∃ q, Walk edge entry d q ∧ q <:+ p := by
  induction hp with
  | start =>
    rw [mem_singleton.1 hd]
    exact ⟨_, .start, suffix_rfl⟩
  | @step m n p hp hedge ih =>
    rcases mem_cons.1 hd with rfl | hd
    · exact ⟨_, hp.step hedge, suffix_rfl⟩
    · obtain ⟨q, hq, hsuf⟩ := ih hd
      exact ⟨q, hq, hsuf.trans (suffix_cons _ _)⟩

lemma Walk.head : ∃ q, p = n :: q := by
  cases hp with
  | start => exact ⟨[], rfl⟩
  | step hp _ => exact ⟨_, rfl⟩

lemma Walk.mem_end : n ∈ p := by
  obtain ⟨q, rfl⟩ := hp.head
  exact mem_cons_self

lemma Walk.mem_entry : entry ∈ p := by
  induction hp with
  | start => exact mem_cons_self
  | step _ _ ih => exact mem_cons_of_mem _ ih

end

/-! ## Dominance is a partial order -/

lemma Dominates.refl (n : α) : Dominates edge entry n n := fun _ hp => hp.mem_end

lemma Dominates.trans {d e : α} (hde : Dominates edge entry d e)
    (hen : Dominates edge entry e n) : Dominates edge entry d n := by
  intro p hp
  obtain ⟨q, hq, hsuf⟩ := hp.suffix (hen p hp)
  exact hsuf.subset (hde q hq)

lemma Walk.shorter (hp : Walk edge entry a p) (hb : b ∈ p)
    (hne : b ≠ a) : ∃ q, Walk edge entry b q ∧ q.length < p.length := by
  obtain ⟨q, hq, hsuf⟩ := hp.suffix hb
  refine ⟨q, hq, Nat.lt_of_le_of_ne hsuf.length_le fun hlen => hne ?_⟩
  obtain ⟨p', rfl⟩ := hp.head
  obtain ⟨q', rfl⟩ := hq.head
  have := hsuf.eq_of_length hlen
  exact (List.cons.inj this).1

lemma Dominates.antisymm (ha : Reachable edge entry a)
    (hab : Dominates edge entry a b) (hba : Dominates edge entry b a) : a = b := by
  by_contra hne
  -- descend along ever shorter walks to `a`
  have key : ∀ n, ∀ p, Walk edge entry a p → p.length ≤ n → False := by
    intro n
    induction n with
    | zero =>
      intro p hp hlen
      obtain ⟨q, rfl⟩ := hp.head
      simp at hlen
    | succ n ih =>
      intro p hp hlen
      obtain ⟨q, hq, hlt⟩ := hp.shorter (hba p hp) (Ne.symm hne)
      obtain ⟨r, hr, hlt'⟩ := hq.shorter (hab q hq) hne
      exact ih r hr (by omega)
  obtain ⟨p, hp⟩ := ha
  exact key p.length p hp (Nat.le_refl _)

/-- The closest of the other nodes every walk to `n` visits. -/
def IsImmediateDominator (edge : α → α → Prop) (entry w n : α) : Prop :=
  w ≠ n ∧ Dominates edge entry w n ∧
    ∀ c, c ≠ n → Dominates edge entry c n → Dominates edge entry c w

lemma Dominates.reachable {d : α} (h : Dominates edge entry d n)
    (hn : Reachable edge entry n) : Reachable edge entry d := by
  obtain ⟨p, hp⟩ := hn
  obtain ⟨q, hq, -⟩ := hp.suffix (h p hp)
  exact ⟨q, hq⟩

lemma IsImmediateDominator.unique {v w : α} (hn : Reachable edge entry n)
    (hv : IsImmediateDominator edge entry v n) (hw : IsImmediateDominator edge entry w n) : v = w :=
  Dominates.antisymm (hv.2.1.reachable hn) (hw.2.2 v hv.1 hv.2.1) (hv.2.2 w hw.1 hw.2.1)

/-! ## Dominance along edges -/

lemma Dominates.pred {d : α} (h : Dominates edge entry d n) (hedge : edge m n) :
    d = n ∨ Dominates edge entry d m := by
  by_cases hd : d = n
  · exact .inl hd
  · refine .inr fun p hp => ?_
    rcases mem_cons.1 (h _ (hp.step hedge)) with hdn | hdp
    · exact absurd hdn hd
    · exact hdp

lemma Dominates.eq_entry {d : α} (h : Dominates edge entry d entry) : d = entry :=
  mem_singleton.1 (h _ .start)

lemma dominates_of_only_pred (hn : n ≠ entry) (h : ∀ k, edge k n → k = m) :
    Dominates edge entry m n := by
  intro p hp
  cases hp with
  | start => exact absurd rfl hn
  | step hp hedge =>
    rw [← h _ hedge]
    exact mem_cons_of_mem _ hp.mem_end

lemma Reachable.exists_pred_ne (h : Reachable edge entry n) (hn : n ≠ entry) :
    ∃ m, m ≠ n ∧ Reachable edge entry m ∧ edge m n := by
  obtain ⟨p, hp⟩ := h
  induction hp with
  | start => exact absurd rfl hn
  | @step m n p hp hedge ih =>
    by_cases hm : m = n
    · subst hm
      exact ih hn
    · exact ⟨m, hm, ⟨p, hp⟩, hedge⟩

section

variable (hsub : ∀ m n, edge m n → edge' m n)
include hsub

lemma Walk.mono (hp : Walk edge entry n p) : Walk edge' entry n p := by
  induction hp with
  | start => exact .start
  | step _ hedge ih => exact ih.step (hsub _ _ hedge)

lemma Reachable.mono (h : Reachable edge entry n) : Reachable edge' entry n := by
  obtain ⟨p, hp⟩ := h
  exact ⟨p, hp.mono hsub⟩

lemma Dominates.anti {d : α} (h : Dominates edge' entry d n) : Dominates edge entry d n :=
  fun p hp => h p (hp.mono hsub)

end

/-! ## Parent tables -/

/-- `Ancestor parent a n`: `a` is reached from `n` by following `parent`. -/
inductive Ancestor (parent : α → Option α) : α → α → Prop where
  | refl (n : α) : Ancestor parent n n
  | up {a m n : α} (hparent : parent n = some m) (hanc : Ancestor parent a m) :
      Ancestor parent a n

variable {parent : α → Option α}

lemma Ancestor.trans (hab : Ancestor parent a b) (hbc : Ancestor parent b c) :
    Ancestor parent a c := by
  induction hbc with
  | refl => exact hab
  | up hp _ ih => exact .up hp ih

lemma Ancestor.eq_of_self (hself : parent n = some n) (h : Ancestor parent a n) : a = n := by
  induction h with
  | refl => rfl
  | up hp _ ih =>
    rw [hself] at hp
    cases hp
    exact ih hself

/-- A parent table in which the parent of every target of an edge is an ancestor of the
edge's source names dominators only: every ancestor of a reachable node dominates it. -/
lemma Ancestor.dominates (hentry : parent entry = some entry)
    (hedge : ∀ m n, Reachable edge entry m → edge m n → n ≠ entry →
      ∃ u, parent n = some u ∧ Ancestor parent u m)
    (h : Ancestor parent a n) : Dominates edge entry a n := by
  intro p hp
  induction hp generalizing a with
  | start =>
    rw [h.eq_of_self hentry]
    exact mem_cons_self
  | @step m n p hp hmn ih =>
    cases h with
    | refl => exact mem_cons_self
    | up hparent hanc =>
      by_cases hn : n = entry
      · subst hn
        rw [hentry] at hparent
        cases hparent
        rw [hanc.eq_of_self hentry]
        exact mem_cons_self
      · obtain ⟨u, hu, huanc⟩ := hedge m n ⟨p, hp⟩ hmn hn
        rw [hu] at hparent
        cases hparent
        exact mem_cons_of_mem _ (ih (hanc.trans huanc))

end Arandu.Library
