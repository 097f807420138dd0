import Arandu.Stdlib.Arc

/-!
# Reference counting

`stdlib/alloc/rc.aru`: the two counters of an `Rc` block. The last `Rc.destroy` reads the payload
into a local, gives up the implicit weak reference and destroys the local at the end of its scope.
So the destructor of the payload begins when the counters are written, and all operations may be
called on the same block before it returns.
-/

namespace Arandu.Stdlib

open Library

/-- The counters of a block, the handles to it, how often its payload has been moved to a caller,
is being destroyed and has been destroyed, and how often the block has been freed. -/
structure RcState where
  strong : Nat
  weak : Nat
  rcs : Nat
  weaks : Nat
  moved : Nat
  destroying : Nat
  destroyed : Nat
  freed : Nat
deriving DecidableEq, Repr

inductive RcCall where
  | clone
  | downgrade
  | tryUnwrap
  | getMut
  | destroy
  | weakClone
  | upgrade
  | weakDestroy
deriving DecidableEq, Repr

inductive RcMove where
  | call (c : RcCall)
  /-- A destructor of the payload returns. -/
  | payloadDestroyed
deriving DecidableEq, Repr

namespace RcState

def new : RcState := ⟨1, 1, 1, 0, 0, 0, 0, 0⟩

variable (word : WordSize) (s : RcState)

def isUnique : Bool := s.strong == 1 && s.weak == 1

/-- The last strong handle goes after the payload. -/
def release : RcState :=
  let weak := word.decrement s.weak
  { s with
    strong := 0, weak, rcs := s.rcs - 1
    freed := if weak = 0 then s.freed + 1 else s.freed }

/-- Whether a call succeeds, and the state after it; a call that aborts has no answer. -/
def call : RcCall → Option (Bool × RcState)
  | .clone =>
    if s.strong = 0 ∨ countLimit ≤ s.strong then none
    else some (true, { s with strong := s.strong + 1, rcs := s.rcs + 1 })
  | .downgrade =>
    if countLimit ≤ s.weak then none
    else some (true, { s with weak := s.weak + 1, weaks := s.weaks + 1 })
  | .tryUnwrap =>
    if s.strong = 1 then some (true, release word { s with moved := s.moved + 1 })
    else some (false, s)
  | .getMut => some (s.isUnique, s)
  | .destroy =>
    let strong := word.decrement s.strong
    if strong = 0 then some (true, release word { s with destroying := s.destroying + 1 })
    else some (true, { s with strong, rcs := s.rcs - 1 })
  | .weakClone =>
    if s.weak = 0 ∨ countLimit ≤ s.weak then none
    else some (true, { s with weak := s.weak + 1, weaks := s.weaks + 1 })
  | .upgrade =>
    if s.strong = 0 then some (false, s)
    else if countLimit ≤ s.strong then none
    else some (true, { s with strong := s.strong + 1, rcs := s.rcs + 1 })
  | .weakDestroy =>
    let weak := word.decrement s.weak
    some (true, { s with
      weak, weaks := s.weaks - 1
      freed := if weak = 0 ∧ s.strong = 0 then s.freed + 1 else s.freed })

/-- The handles that a call can be made on. -/
def handles : RcCall → Nat
  | .weakClone | .upgrade | .weakDestroy => s.weaks
  | _ => s.rcs

def step : RcMove → Option RcState
  | .call c => if s.handles c = 0 then none else (s.call word c).map Prod.snd
  | .payloadDestroyed =>
    if s.destroying = 0 then none
    else some { s with destroying := s.destroying - 1, destroyed := s.destroyed + 1 }

/-- The strong handles together hold one weak reference. -/
structure Inv : Prop where
  strong : s.strong = s.rcs
  strong_le : s.strong ≤ countLimit
  weak : s.weak = s.weaks + min 1 s.rcs
  weak_le : s.weak ≤ countLimit
  payload : s.moved + s.destroying + s.destroyed = 1 - s.rcs
  freed : s.freed = 1 - (s.rcs + s.weaks)

variable {word s} {s' : RcState} {c : RcCall} {ok : Bool}

lemma Inv.release (h : s.Inv) (hlast : s.strong = 1) {m d : Nat}
    (hleft : m + d = s.moved + s.destroying + 1) :
    (release word { s with moved := m, destroying := d }).Inv := by
  obtain ⟨hstrong, -, hweak, hle, hpayload, hfreed⟩ := h
  have hlimit : countLimit ≤ countLock := by decide
  have hdec : word.decrement s.weak = s.weak - 1 := word.decrement_eq (by omega) (by omega)
  unfold RcState.release
  rw [hdec]
  constructor <;> dsimp only
  case freed => split_ifs <;> omega
  all_goals omega

lemma Inv.call (h : s.Inv) (hlive : s.handles c ≠ 0)
    (hcall : s.call word c = some (ok, s')) : s'.Inv := by
  have hlimit : countLimit ≤ countLock := by decide
  obtain ⟨hstrong, hle, hweak, hwle, hpayload, hfreed⟩ := id h
  cases c with
  | clone | downgrade | weakClone =>
    simp only [RcState.call, Option.ite_none_left_eq_some, Option.some.injEq] at hcall
    obtain ⟨hroom, hcall⟩ := hcall
    cases hcall
    simp only [handles] at hlive
    constructor <;> dsimp only <;> omega
  | tryUnwrap =>
    rw [RcState.call] at hcall
    split_ifs at hcall with hlast <;> cases hcall
    · exact h.release hlast (by omega)
    · exact h
  | getMut =>
    cases hcall
    exact h
  | destroy =>
    simp only [handles] at hlive
    have hdec : word.decrement s.strong = s.strong - 1 := word.decrement_eq (by omega) (by omega)
    simp only [RcState.call, hdec] at hcall
    split_ifs at hcall with hlast <;> cases hcall
    · exact h.release (by omega) rfl
    · constructor <;> dsimp only <;> omega
  | upgrade =>
    rw [RcState.call] at hcall
    split_ifs at hcall with hzero hroom <;> cases hcall
    · exact h
    · constructor <;> dsimp only <;> omega
  | weakDestroy =>
    simp only [handles] at hlive
    have hdec : word.decrement s.weak = s.weak - 1 := word.decrement_eq (by omega) (by omega)
    simp only [RcState.call, hdec] at hcall
    split_ifs at hcall with hlast <;> cases hcall
    · constructor <;> dsimp only <;> omega
    · constructor <;> dsimp only <;> omega

lemma Inv.step {move : RcMove} (h : s.Inv) (hstep : s.step word move = some s') : s'.Inv := by
  cases move with
  | call c =>
    simp only [RcState.step, Option.ite_none_left_eq_some, Option.map_eq_some_iff] at hstep
    obtain ⟨hlive, ⟨ok, _⟩, hcall, rfl⟩ := hstep
    exact h.call hlive hcall
  | payloadDestroyed =>
    simp only [RcState.step, Option.ite_none_left_eq_some, Option.some.injEq] at hstep
    obtain ⟨hrunning, rfl⟩ := hstep
    have hpayload := h.payload
    exact { h with payload := by dsimp only; omega }

/-- Whatever is called on the handles of a block, in destructors of its payload too, the payload
leaves with the last strong handle and the block is freed when no handle is left, both once.
Upgrades succeed as long as there is a strong handle, and `getMut` on the only handle alone. -/
theorem rc_released_once (word : WordSize) {moves : List RcMove} {s : RcState}
    (hrun : runSchedule (RcState.step word) moves .new = some s) :
    (s.moved + s.destroying + s.destroyed = if s.rcs = 0 then 1 else 0) ∧
    (s.freed = if s.rcs = 0 ∧ s.weaks = 0 then 1 else 0) ∧
    (∀ ok s', s.call word .upgrade = some (ok, s') → (ok = true ↔ s.rcs ≠ 0)) ∧
    ∀ s', s.rcs ≠ 0 → s.call word .getMut = some (true, s') → s.rcs = 1 ∧ s.weaks = 0 := by
  have hnew : Inv .new := by constructor <;> decide
  obtain ⟨hstrong, -, hweak, -, hpayload, hfreed⟩ :=
    runSchedule_invariant (fun _ _ _ h => h.step) hnew hrun
  refine ⟨by split_ifs <;> omega, by split_ifs <;> omega, ?_, ?_⟩
  · intro ok s' hcall
    rw [RcState.call, hstrong] at hcall
    split_ifs at hcall with hzero <;> cases hcall <;> simp [hzero]
  · intro s' hlive hcall
    have hunique : s.isUnique = true := congrArg Prod.fst (Option.some.inj hcall)
    simp only [isUnique, Bool.and_eq_true, beq_iff_eq] at hunique
    omega

/-- The payload holds a weak handle, upgrades it in vain in its destructor and destroys it. -/
theorem rc_released_once_reentrant : runSchedule (RcState.step .bits32) [.call .downgrade,
    .call .destroy, .call .upgrade, .call .weakDestroy, .payloadDestroyed] .new =
      some ⟨0, 0, 0, 0, 0, 0, 1, 1⟩ ∧ 1 = if 0 = 0 ∧ 0 = 0 then 1 else 0 := by
  refine (and_iff_left_of_imp fun hrun => ?_).2 (by decide +kernel)
  exact (rc_released_once .bits32 hrun).2.1

end RcState

end Arandu.Stdlib
