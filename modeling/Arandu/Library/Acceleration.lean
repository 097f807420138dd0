import Mathlib.Logic.Function.Iterate

/-!
# Acceleration

Two deterministic machines run the same computation, but the second one takes fewer steps:
each of its steps does what one or more steps of the first one do. Because a step of the
second machine stands for at least one step of the first, the second cannot run for ever
where the first one stops, and because it only skips states it cannot stop where the first
one runs on.

`Accelerates.of_invariant` is the rule to establish an acceleration, `Accelerates.trans`
composes two of them, and `Accelerates.eventually_iff` transfers stable events.
-/

namespace Arandu.Library

variable {C D F : Type*}

/-- Every state of the second run is related to a state of the first run that is at least
as many steps away from the start. -/
def Accelerates (R : C → D → Prop) (step : C → C) (step' : D → D) (c : C) (d : D) : Prop :=
  ∀ m, ∃ n, m ≤ n ∧ R (step^[n] c) (step'^[m] d)

namespace Accelerates

variable {R : C → D → Prop} {step : C → C} {step' : D → D} {c : C} {d : D}

lemma of_invariant {I : C → D → Prop} (hR : ∀ c d, I c d → R c d)
    (hstep : ∀ c d, I c d → ∃ k, 1 ≤ k ∧ I (step^[k] c) (step' d)) (hinit : I c d) :
    Accelerates R step step' c d := by
  -- the invariant itself is carried along the second run
  have hinv : ∀ m, ∃ n, m ≤ n ∧ I (step^[n] c) (step'^[m] d) := by
    intro m
    induction m with
    | zero => exact ⟨0, Nat.le_refl 0, hinit⟩
    | succ m ih =>
      obtain ⟨n, hmn, hI⟩ := ih
      obtain ⟨k, hk, hI'⟩ := hstep _ _ hI
      refine ⟨k + n, by omega, ?_⟩
      rw [Function.iterate_add_apply, Function.iterate_succ_apply']
      exact hI'
  intro m
  obtain ⟨n, hmn, hI⟩ := hinv m
  exact ⟨n, hmn, hR _ _ hI⟩

lemma refl {R : C → C → Prop} (hR : ∀ c, R c c) (step : C → C) (c : C) :
    Accelerates R step step c c :=
  fun m => ⟨m, Nat.le_refl m, hR _⟩

lemma trans {S : D → F → Prop} {T : C → F → Prop} {step'' : F → F} {e : F}
    (hT : ∀ c d e, R c d → S d e → T c e) (h : Accelerates R step step' c d)
    (h' : Accelerates S step' step'' d e) : Accelerates T step step'' c e := by
  intro m
  obtain ⟨n, hmn, hS⟩ := h' m
  obtain ⟨k, hnk, hR⟩ := h n
  exact ⟨k, Nat.le_trans hmn hnk, hT _ _ _ hR hS⟩

/-- An event that, once it happened, stays: both runs see it, or neither does. -/
lemma eventually_iff (h : Accelerates R step step' c d) {P : C → Prop} {Q : D → Prop}
    (hPQ : ∀ c d, R c d → (P c ↔ Q d)) (hstable : ∀ c, P c → P (step c)) :
    (∃ n, P (step^[n] c)) ↔ ∃ m, Q (step'^[m] d) := by
  have hlater : ∀ {n k}, n ≤ k → P (step^[n] c) → P (step^[k] c) := by
    intro n k hnk hP
    induction hnk with
    | refl => exact hP
    | step _ ih =>
      rw [Function.iterate_succ_apply']
      exact hstable _ ih
  constructor
  · rintro ⟨n, hP⟩
    obtain ⟨k, hnk, hR⟩ := h n
    exact ⟨n, (hPQ _ _ hR).1 (hlater hnk hP)⟩
  · rintro ⟨m, hQ⟩
    obtain ⟨n, -, hR⟩ := h m
    exact ⟨n, (hPQ _ _ hR).2 hQ⟩

end Accelerates

end Arandu.Library
