import Mathlib.Logic.Basic
import Mathlib.Data.Nat.Notation

/-!
# Schedules of a stepping system

A system whose next step depends on which of its parts moves. A schedule names the part that moves
at each step; it fails as soon as the part named cannot move.
-/

namespace Arandu.Library

variable {S K : Type} (step : S → K → Option S)

/-- The state after a schedule. -/
def runSchedule : List K → S → Option S
  | [], s => some s
  | k :: ks, s =>
    match step s k with
    | none => none
    | some s' => runSchedule ks s'

/-- Every step of a schedule meets a condition on the state before it. -/
def Along (cond : S → K → Prop) : List K → S → Prop
  | [], _ => True
  | k :: ks, s => cond s k ∧ ∀ s', step s k = some s' → Along cond ks s'

/-- No part can move. -/
def Halted (s : S) : Prop := ∀ k, step s k = none

variable {step} {ks : List K} {s' s : S}

lemma runSchedule_cons {k : K} : runSchedule step (k :: ks) s = some s' ↔
      ∃ s₁, step s k = some s₁ ∧ runSchedule step ks s₁ = some s' := by
  rw [runSchedule]
  cases step s k with
  | none => simp
  | some s₁ =>
    constructor
    · intro hrest
      exact ⟨s₁, rfl, hrest⟩
    · intro ⟨s₂, hstep, hrest⟩
      cases hstep
      exact hrest

/-- Whether every step meets the condition is found by taking the steps. -/
instance Along.decidable {cond : S → K → Prop} [∀ s k, Decidable (cond s k)] :
    ∀ ks s, Decidable (Along step cond ks s)
  | [], _ => isTrue trivial
  | k :: ks, s =>
    match h : step s k with
    | none =>
      decidable_of_iff (cond s k) ⟨fun hc => ⟨hc, fun _ hs => nomatch h.symm.trans hs⟩, And.left⟩
    | some s' =>
      have : Decidable (Along step cond ks s') := Along.decidable ks s'
      decidable_of_iff (cond s k ∧ Along step cond ks s')
        ⟨fun hc => ⟨hc.1, fun _ hs => Option.some.inj (h.symm.trans hs) ▸ hc.2⟩,
          fun hc => ⟨hc.1, hc.2 s' h⟩⟩

variable {inv : S → Prop} {cond : S → K → Prop}

/-- What every step keeps holds along every schedule. -/
lemma runSchedule_invariant (hstep : ∀ s k s', inv s → step s k = some s' → inv s')
    (hs : inv s) (hrun : runSchedule step ks s = some s') : inv s' := by
  induction ks generalizing s with
  | nil =>
    cases hrun
    exact hs
  | cons k ks ih =>
    obtain ⟨s₁, h₁, hrest⟩ := runSchedule_cons.1 hrun
    exact ih (hstep s k s₁ hs h₁) hrest

/-- What the steps that meet a condition keep holds along every schedule of such steps. -/
lemma Along.invariant (hstep : ∀ s k s', cond s k → inv s → step s k = some s' → inv s')
    (halong : Along step cond ks s) (hs : inv s) (hrun : runSchedule step ks s = some s') :
    inv s' := by
  induction ks generalizing s with
  | nil =>
    cases hrun
    exact hs
  | cons k ks ih =>
    obtain ⟨s₁, h₁, hrest⟩ := runSchedule_cons.1 hrun
    exact ih (halong.2 s₁ h₁) (hstep s k s₁ halong.1 hs h₁) hrest

lemma Along.iff_of_step {cond' : S → K → Prop}
    (hstep : ∀ s k s', inv s → step s k = some s' → inv s')
    (hcond : ∀ s k s', inv s → step s k = some s' → (cond s k ↔ cond' s k))
    (hs : inv s) (hrun : runSchedule step ks s = some s') :
    Along step cond ks s ↔ Along step cond' ks s := by
  induction ks generalizing s with
  | nil => exact Iff.rfl
  | cons k ks ih =>
    obtain ⟨s₁, h₁, hrest⟩ := runSchedule_cons.1 hrun
    unfold Along
    rw [hcond s k s₁ hs h₁]
    refine and_congr_right fun _ => forall_congr' fun s₂ => imp_congr_right fun h₂ => ?_
    rw [← Option.some.inj (h₁.symm.trans h₂)]
    exact ih (hstep s k s₁ hs h₁) hrest

variable {rank : S → Nat}

variable {s : S} (hstep : ∀ s k s', inv s → step s k = some s' → inv s')
include hstep

variable (hrank : ∀ s k s', inv s → step s k = some s' → rank s' < rank s)
include hrank

/-- A rank that every step lowers bounds the length of every schedule. -/
lemma runSchedule_length_le (hs : inv s)
    (hrun : runSchedule step ks s = some s') : ks.length ≤ rank s := by
  induction ks generalizing s with
  | nil => exact Nat.zero_le _
  | cons k ks ih =>
    obtain ⟨s₁, h₁, hrest⟩ := runSchedule_cons.1 hrun
    have := ih (hstep s k s₁ hs h₁) hrest
    have := hrank s k s₁ hs h₁
    rw [List.length_cons]
    omega

/-- With such a rank every state runs on to one where no part can move. -/
lemma exists_runSchedule_halted (hs : inv s) :
    ∃ ks s', runSchedule step ks s = some s' ∧ Halted step s' := by
  -- strong induction on the rank: a state that can move moves to a smaller one
  induction hn : rank s using Nat.strongRecOn generalizing s with
  | ind n ih =>
    by_cases hhalted : Halted step s
    · exact ⟨[], s, rfl, hhalted⟩
    · obtain ⟨k, hk⟩ := Classical.not_forall.1 hhalted
      obtain ⟨s₁, h₁⟩ := Option.ne_none_iff_exists'.1 hk
      obtain ⟨ks, s', hrun, hend⟩ := ih (rank s₁) (hn ▸ hrank s k s₁ hs h₁) (hstep s k s₁ hs h₁) rfl
      exact ⟨k :: ks, s', runSchedule_cons.2 ⟨s₁, h₁, hrun⟩, hend⟩

end Arandu.Library
