import Mathlib.Data.List.Nodup
import Arandu.Library.Schedule
import Arandu.Library.Table

/-!
# Condition variables

`std/sync/condvar.aru` over `wait_on_monitor` and `notify_monitor` of `rt_runtime/thread.rs`. A wait
samples the sequence, releases the mutex, registers in the queue of its key unless the sequence has
changed, blocks on its own flag, removes its registration and takes the mutex again. A notification
advances the sequence and then releases the oldest registered waits.

Each of these is one step here; between two of them any other thread may move. A key stands for the
address of a condition variable, and the mutex is taken in one step when it is free.
-/

namespace Arandu.Runtime

open Arandu.Library List Option Function

/-! ## Calls -/

/-- How far a wait is. -/
inductive WaitPoint where
  /-- the mutex is about to be released -/
  | sampled
  /-- `wait_on_monitor` is about to look at the sequence again -/
  | unlocked
  | registered
  /-- the flag was seen or the time is over; the registration is about to be removed -/
  | woken
  /-- the mutex is about to be taken again -/
  | done (result : Bool)
  | returned (result : Bool)
deriving DecidableEq, Repr

/-- A call of `wait` or `waitTimeout`, with the flag of its `MonitorWaiter`. -/
structure WaitCall where
  thread : Nat
  mutex : Nat
  key : Nat
  timed : Bool
  seq : Nat
  point : WaitPoint
  notified : Bool
deriving DecidableEq, Repr

/-- How far a notification is; a value is what the sequence was advanced to. -/
inductive NotifyPoint where
  | starting
  | loaded (current : Nat)
  | advanced (value : Nat)
  | returned (value : Nat)
deriving DecidableEq, Repr

/-- A call of `notifyOne` or `notifyAll`. -/
structure NotifyCall where
  thread : Nat
  key : Nat
  all : Bool
  point : NotifyPoint
deriving DecidableEq, Repr

structure CondvarState where
  owners : Nat → Option Nat
  sequences : Nat → Nat
  monitors : Nat → List Nat
  waits : List WaitCall
  notifies : List NotifyCall
  /-- the waits that have registered with a key, in order -/
  arrivals : Nat → List Nat
  /-- the waits that were released, in order -/
  releases : List Nat

/-- `Condvar.new` for every key, and all mutexes free. -/
def CondvarState.new : CondvarState :=
  ⟨fun _ => none, fun _ => 0, fun _ => [], [], [], fun _ => [], []⟩

def WaitPoint.isReturned : WaitPoint → Bool
  | .returned _ => true
  | _ => false

def NotifyPoint.isReturned : NotifyPoint → Bool
  | .returned _ => true
  | _ => false

/-- The loop of `notify_monitor`: the waits it releases and those that stay. -/
def popWaiters (all : Bool) : List Nat → List Nat × List Nat
  | [] => ([], [])
  | k :: ks =>
    if all then (k :: (popWaiters all ks).1, (popWaiters all ks).2) else ([k], ks)

namespace CondvarState

variable (s : CondvarState)

/-- The thread is in no call. -/
def idle (thread : Nat) : Bool :=
  (s.waits.all fun c => decide (c.thread ≠ thread) || c.point.isReturned) &&
    s.notifies.all fun c => decide (c.thread ≠ thread) || c.point.isReturned

/-- The wait goes on to the next point. -/
def setWait (k : Nat) (c : WaitCall) (point : WaitPoint) : CondvarState :=
  { s with waits := s.waits.set k { c with point := point } }

/-- A step of `wait` or `waitTimeout`; no result while it is blocked. -/
def proceedWait (k : Nat) : Option CondvarState :=
  match s.waits[k]? with
  | none => none
  | some c =>
    match c.point with
    | .sampled =>
      some { s.setWait k c .unlocked with owners := update s.owners c.mutex none }
    | .unlocked =>
      if s.sequences c.key ≠ c.seq then some (s.setWait k c (.done true))
      else
        some { s.setWait k c .registered with
          monitors := update s.monitors c.key (s.monitors c.key ++ [k])
          arrivals := update s.arrivals c.key (s.arrivals c.key ++ [k]) }
    | .registered => if c.notified || c.timed then some (s.setWait k c .woken) else none
    | .woken =>
      some { s.setWait k c (.done c.notified) with
        monitors := update s.monitors c.key ((s.monitors c.key).filter (· ≠ k)) }
    | .done result =>
      if s.owners c.mutex = none then
        some { s.setWait k c (.returned result) with
          owners := update s.owners c.mutex (some c.thread) }
      else none
    | .returned _ => none

/-- The flags of the released waits are set. -/
def release (ks : List Nat) : List WaitCall :=
  s.waits.mapIdx fun k c => if k ∈ ks then { c with notified := true } else c

/-- A step of `notifyOne` or `notifyAll`; without a result the sequence is exhausted and the process
is aborted. -/
def proceedNotify (limit j : Nat) : Option CondvarState :=
  match s.notifies[j]? with
  | none => none
  | some n =>
    match n.point with
    | .starting =>
      some { s with
        notifies := s.notifies.set j { n with point := .loaded (s.sequences n.key) } }
    | .loaded current =>
      if (current + 1) % limit = 0 then none
      else if s.sequences n.key = current then
        some { s with
          sequences := update s.sequences n.key (current + 1)
          notifies := s.notifies.set j { n with point := .advanced (current + 1) } }
      else
        some { s with
          notifies := s.notifies.set j { n with point := .loaded (s.sequences n.key) } }
    | .advanced value =>
      let popped := popWaiters n.all (s.monitors n.key)
      some { s with
        monitors := update s.monitors n.key popped.2
        waits := s.release popped.1
        notifies := s.notifies.set j { n with point := .returned value }
        releases := s.releases ++ popped.1 }
    | .returned _ => none

end CondvarState

inductive CondvarMove where
  | lock (thread mutex : Nat)
  | unlock (thread mutex : Nat)
  /-- `wait` or `waitTimeout` samples the sequence -/
  | wait (thread mutex key : Nat) (timed : Bool)
  | notify (thread key : Nat) (all : Bool)
  /-- the wait with the given number goes on -/
  | proceedWait (k : Nat)
  /-- the notification with the given number goes on -/
  | proceedNotify (j : Nat)
deriving DecidableEq, Repr

/-- One step; `limit` is the number of values of a `usize`. -/
def CondvarState.step (limit : Nat) (s : CondvarState) : CondvarMove → Option CondvarState
  | .lock thread mutex =>
    if s.idle thread && decide (s.owners mutex = none) then
      some { s with owners := update s.owners mutex (some thread) }
    else none
  | .unlock thread mutex =>
    if s.idle thread && decide (s.owners mutex = some thread) then
      some { s with owners := update s.owners mutex none }
    else none
  | .wait thread mutex key timed =>
    if s.idle thread && decide (s.owners mutex = some thread) then
      some { s with
        waits := s.waits ++ [⟨thread, mutex, key, timed, s.sequences key, .sampled, false⟩] }
    else none
  | .notify thread key all =>
    if s.idle thread then some { s with notifies := s.notifies ++ [⟨thread, key, all, .starting⟩] }
    else none
  | .proceedWait k => s.proceedWait k
  | .proceedNotify j => s.proceedNotify limit j

/-! ## What a step can do -/

variable {limit : Nat} {move : CondvarMove} {s' : CondvarState}

namespace CondvarState

variable (s : CondvarState)

/-- The changes that a step can make. -/
inductive Change : CondvarState → Prop where
  | own (owners : Nat → Option Nat) : Change { s with owners := owners }
  | sample (thread mutex key : Nat) (timed : Bool) :
      Change { s with
        waits := s.waits ++ [⟨thread, mutex, key, timed, s.sequences key, .sampled, false⟩] }
  | unlock {k c} (owners : Nat → Option Nat) (hk : s.waits[k]? = some c) (hp : c.point = .sampled) :
      Change { s.setWait k c .unlocked with owners := owners }
  | pass {k c} (hk : s.waits[k]? = some c) (hp : c.point = .unlocked) :
      Change (s.setWait k c (.done true))
  | register {k c} (hk : s.waits[k]? = some c) (hp : c.point = .unlocked)
      (hseq : s.sequences c.key = c.seq) :
      Change { s.setWait k c .registered with
        monitors := update s.monitors c.key (s.monitors c.key ++ [k])
        arrivals := update s.arrivals c.key (s.arrivals c.key ++ [k]) }
  | wake {k c} (hk : s.waits[k]? = some c) (hp : c.point = .registered) :
      Change (s.setWait k c .woken)
  | remove {k c} (hk : s.waits[k]? = some c) :
      Change { s.setWait k c (.done c.notified) with
        monitors := update s.monitors c.key ((s.monitors c.key).filter (· ≠ k)) }
  | relock {k c result} (hk : s.waits[k]? = some c) (hp : c.point = .done result) :
      Change { s.setWait k c (.returned result) with
        owners := update s.owners c.mutex (some c.thread) }
  | call (thread key : Nat) (all : Bool) :
      Change { s with notifies := s.notifies ++ [⟨thread, key, all, .starting⟩] }
  | load {j n} (current : Nat) (hj : s.notifies[j]? = some n) :
      Change { s with notifies := s.notifies.set j { n with point := .loaded current } }
  | advance {j n} (hj : s.notifies[j]? = some n) :
      Change { s with
        sequences := update s.sequences n.key (s.sequences n.key + 1)
        notifies := s.notifies.set j { n with point := .advanced (s.sequences n.key + 1) } }
  | bucket {j n value} (hj : s.notifies[j]? = some n) (hp : n.point = .advanced value) :
      Change { s with
        monitors := update s.monitors n.key (popWaiters n.all (s.monitors n.key)).2
        waits := s.release (popWaiters n.all (s.monitors n.key)).1
        notifies := s.notifies.set j { n with point := .returned value }
        releases := s.releases ++ (popWaiters n.all (s.monitors n.key)).1 }

variable {s}

open CondvarState

lemma Change.of_proceedWait {k : Nat} (hstep : s.proceedWait k = some s') : s.Change s' := by
  unfold proceedWait at hstep
  cases hk : s.waits[k]? with
  | none => simp [hk] at hstep
  | some c =>
    simp only [hk] at hstep
    cases hp : c.point with
    | sampled =>
      simp only [hp, some.injEq] at hstep
      exact hstep ▸ .unlock _ hk hp
    | unlocked =>
      simp only [hp] at hstep
      split at hstep
      · exact some.inj hstep ▸ .pass hk hp
      · rename_i hseq
        exact some.inj hstep ▸ .register hk hp (not_not.1 hseq)
    | registered =>
      simp only [hp, ite_none_right_eq_some] at hstep
      exact some.inj hstep.2 ▸ .wake hk hp
    | woken =>
      simp only [hp, some.injEq] at hstep
      exact hstep ▸ .remove hk
    | done result =>
      simp only [hp, ite_none_right_eq_some] at hstep
      exact some.inj hstep.2 ▸ .relock hk hp
    | returned result => simp [hp] at hstep

lemma Change.of_proceedNotify {j : Nat}
    (hstep : s.proceedNotify limit j = some s') : s.Change s' := by
  unfold proceedNotify at hstep
  cases hj : s.notifies[j]? with
  | none => simp [hj] at hstep
  | some n =>
    simp only [hj] at hstep
    cases hp : n.point with
    | starting =>
      simp only [hp, some.injEq] at hstep
      exact hstep ▸ .load _ hj
    | loaded current =>
      simp only [hp, ite_none_left_eq_some] at hstep
      obtain ⟨-, hstep⟩ := hstep
      split at hstep
      · rename_i hcurrent
        subst hcurrent
        exact some.inj hstep ▸ .advance hj
      · exact some.inj hstep ▸ .load _ hj
    | advanced value =>
      simp only [hp, some.injEq] at hstep
      exact hstep ▸ .bucket hj hp
    | returned value => simp [hp] at hstep

lemma Change.of_step (hstep : s.step limit move = some s') : s.Change s' := by
  cases move with
  | lock thread mutex | unlock thread mutex =>
    rw [step, ite_none_right_eq_some] at hstep
    exact some.inj hstep.2 ▸ .own _
  | wait thread mutex key timed =>
    rw [step, ite_none_right_eq_some] at hstep
    exact some.inj hstep.2 ▸ .sample thread mutex key timed
  | notify thread key all =>
    rw [step, ite_none_right_eq_some] at hstep
    exact some.inj hstep.2 ▸ .call thread key all
  | proceedWait k => exact .of_proceedWait hstep
  | proceedNotify j => exact .of_proceedNotify hstep

end CondvarState

/-! ## What is promised -/

variable (s : CondvarState)

/-- The wait is blocked on its flag. -/
def CondvarState.Blocked (k : Nat) : Prop :=
  ∃ c, s.waits[k]? = some c ∧ c.point = .registered ∧ c.notified = false

/-- The notification has advanced the sequence. -/
def CondvarState.Advanced (j : Nat) : Prop :=
  ∃ n v, s.notifies[j]? = some n ∧ (n.point = .advanced v ∨ n.point = .returned v)

/-- The wait has returned. -/
def CondvarState.Returned (k : Nat) (result : Bool) : Prop :=
  ∃ c, s.waits[k]? = some c ∧ c.point = .returned result

/-! ## The invariant -/

/-- A point that is reached only by a wait that was not released. -/
def WaitPoint.unheard : WaitPoint → Bool
  | .sampled | .unlocked | .done false | .returned false => true
  | _ => false

namespace CondvarState

/-- What holds of a wait: it is queued, under its own key alone, exactly while it is registered and
its flag is not set. -/
structure WaitOk (s : CondvarState) (k : Nat) (c : WaitCall) : Prop where
  seq_le : c.seq ≤ s.sequences c.key
  released : k ∈ s.releases ↔ c.notified = true
  queued : ∀ key, k ∈ s.monitors key ↔
    key = c.key ∧ c.notified = false ∧ (c.point = .registered ∨ c.point = .woken)
  arrived : ∀ key, k ∈ s.arrivals key → c.point ≠ .sampled ∧ c.point ≠ .unlocked
  unheard : c.point.unheard = true → c.notified = false

/-- What holds of a notification: once a `notifyAll` has returned, only waits that sampled the
sequence after it are queued. -/
structure NotifyOk (s : CondvarState) (n : NotifyCall) : Prop where
  value_le : ∀ v, n.point = .advanced v ∨ n.point = .returned v → v ≤ s.sequences n.key
  heard : n.all = true → ∀ v, n.point = .returned v →
    ∀ k ∈ s.monitors n.key, ∀ c, s.waits[k]? = some c → v ≤ c.seq

structure Consistent (s : CondvarState) : Prop where
  wait : ∀ (k : Nat) (c : WaitCall), s.waits[k]? = some c → s.WaitOk k c
  notify : ∀ n ∈ s.notifies, s.NotifyOk n
  known : ∀ k, k ∈ s.releases ∨ (∃ key, k ∈ s.arrivals key) → k < s.waits.length
  order : ∀ key, (s.arrivals key).Nodup ∧ (s.monitors key).Sublist (s.arrivals key)
  once : s.releases.Nodup

variable {s s' : CondvarState} {k j v value : Nat} {c : WaitCall} {n : NotifyCall}
  {point : WaitPoint}

/-- A step that leaves the place of a wait alone keeps what holds of it. -/
lemma WaitOk.frame (h : s.WaitOk k c) (hseq : s.sequences c.key ≤ s'.sequences c.key)
    (hreleases : k ∈ s'.releases ↔ k ∈ s.releases)
    (hmonitors : ∀ key, k ∈ s'.monitors key ↔ k ∈ s.monitors key)
    (harrivals : ∀ key, k ∈ s'.arrivals key → k ∈ s.arrivals key) : s'.WaitOk k c where
  seq_le := Nat.le_trans h.seq_le hseq
  released := hreleases.trans h.released
  queued key := (hmonitors key).trans (h.queued key)
  arrived key hk := h.arrived key (harrivals key hk)
  unheard := h.unheard

/-- A step that queues only waits that sampled the present sequence keeps what holds of a
notification. -/
lemma NotifyOk.frame (h : s.NotifyOk n) (hseq : s.sequences n.key ≤ s'.sequences n.key)
    (hwaits : ∀ (k : Nat) (c' : WaitCall), k ∈ s'.monitors n.key → s'.waits[k]? = some c' →
      c'.seq = s.sequences n.key ∨
        k ∈ s.monitors n.key ∧ ∃ c, s.waits[k]? = some c ∧ c.seq = c'.seq) : s'.NotifyOk n where
  value_le v hv := Nat.le_trans (h.value_le v hv) hseq
  heard hall v hv k hk c' hc' := by
    rcases hwaits k c' hk hc' with hnew | ⟨hold, c, hc, hcseq⟩
    · rw [hnew]
      exact h.value_le v (.inr hv)
    · exact hcseq ▸ h.heard hall v hv k hold c hc

lemma Consistent.new : Consistent .new where
  wait k c hk := by simp [CondvarState.new] at hk
  notify n hn := by simp [CondvarState.new] at hn
  known k hk := by simp [CondvarState.new] at hk
  order key := ⟨nodup_nil, List.Sublist.refl _⟩
  once := nodup_nil

variable (h : s.Consistent)

include h in
lemma Consistent.setOwners (owners : Nat → Option Nat) : Consistent { s with owners := owners } :=
  ⟨fun k c hk => (h.wait k c hk).frame (Nat.le_refl _) Iff.rfl (fun _ => Iff.rfl) fun _ => id,
    fun n hn => (h.notify n hn).frame (Nat.le_refl _) fun _ c hk hc => .inr ⟨hk, c, hc, rfl⟩,
    h.known, h.order, h.once⟩

include h in
lemma Consistent.queued_lt {key : Nat} (hk : k ∈ s.monitors key) : k < s.waits.length :=
  h.known k (.inr ⟨key, (h.order key).2.subset hk⟩)

/-! ## Steps of a wait -/

include h in
lemma Consistent.addWait (thread mutex key : Nat) (timed : Bool) :
    Consistent { s with
      waits := s.waits ++ [⟨thread, mutex, key, timed, s.sequences key, .sampled, false⟩] } where
  wait k c hk := by
    rcases getElem?_concat_cases hk with hk | ⟨rfl, rfl⟩
    · exact (h.wait k c hk).frame (Nat.le_refl _) Iff.rfl (fun _ => Iff.rfl) fun _ => id
    · -- the new number is in no list yet
      have hfresh := not_or.1 fun hmem => Nat.lt_irrefl _ (h.known s.waits.length hmem)
      refine ⟨?_, ?_, ?_, ?_, ?_⟩
      · simp
      · simpa using hfresh.1
      · intro key'
        simpa using fun hmem => absurd (h.queued_lt hmem) (Nat.lt_irrefl _)
      · exact fun key' hmem => absurd ⟨key', hmem⟩ hfresh.2
      · simp
  notify n hn := by
    refine (h.notify n hn).frame (Nat.le_refl _) fun k c hk hc => .inr ⟨hk, c, ?_, rfl⟩
    rwa [List.getElem?_append_left (h.queued_lt hk)] at hc
  known k hk := by
    have := h.known k hk
    simp only [length_append]
    omega
  order := h.order
  once := h.once

include h in
/-- A wait goes on: the other waits stay where they are, and it is queued only with the present
sequence. -/
lemma Consistent.moveWait (hk : s.waits[k]? = some c) {monitors arrivals : Nat → List Nat}
    (hmonitors : ∀ key i, i ≠ k → (i ∈ monitors key ↔ i ∈ s.monitors key))
    (harrivals : ∀ key i, i ≠ k → i ∈ arrivals key → i ∈ s.arrivals key)
    (horder : ∀ key, (arrivals key).Nodup ∧ (monitors key).Sublist (arrivals key))
    (hqueued : ∀ key, k ∈ monitors key → k ∈ s.monitors key ∨ c.seq = s.sequences key)
    (hok : WaitOk { s.setWait k c point with monitors := monitors, arrivals := arrivals } k
      { c with point := point }) :
    Consistent { s.setWait k c point with monitors := monitors, arrivals := arrivals } := by
  refine ⟨fun i c' hi => ?_, fun n hn => ?_, fun i hi => ?_, horder, h.once⟩
  · rcases getElem?_set_cases hi with ⟨rfl, rfl⟩ | ⟨hki, hi⟩
    · exact hok
    · exact (h.wait i c' hi).frame (Nat.le_refl _) Iff.rfl
        (fun key => hmonitors key i (Ne.symm hki)) fun key => harrivals key i (Ne.symm hki)
  · refine (h.notify n hn).frame (Nat.le_refl _) fun i c' hi hc' => ?_
    rcases getElem?_set_cases hc' with ⟨rfl, rfl⟩ | ⟨hki, hc'⟩
    · exact (hqueued n.key hi).symm.imp id fun hold => ⟨hold, c, hk, rfl⟩
    · exact .inr ⟨(hmonitors n.key i (Ne.symm hki)).1 hi, c', hc', rfl⟩
  · rw [setWait, length_set]
    by_cases hik : i = k
    · exact hik ▸ lt_of_getElem? hk
    · exact h.known i (hi.imp id fun ⟨key, hmem⟩ => ⟨key, harrivals key i hik hmem⟩)

include h in
lemma Consistent.setWait (hk : s.waits[k]? = some c) (point : WaitPoint)
    (hok : (s.setWait k c point).WaitOk k { c with point := point }) :
    (s.setWait k c point).Consistent :=
  h.moveWait hk (fun _ _ _ => Iff.rfl) (fun _ _ _ => id) h.order (fun _ => .inl) hok

lemma WaitOk.setPoint (h : s.WaitOk k c)
    (hqueued : point = .registered ∨ point = .woken ↔ c.point = .registered ∨ c.point = .woken)
    (harrived : point = .sampled ∨ point = .unlocked → c.point = .sampled ∨ c.point = .unlocked)
    (hunheard : point.unheard = true → c.notified = false) :
    (s.setWait k c point).WaitOk k { c with point := point } where
  seq_le := h.seq_le
  released := h.released
  queued key :=
    (h.queued key).trans (and_congr_right fun _ => and_congr_right fun _ => hqueued.symm)
  arrived key hmem := by
    have hold := h.arrived key hmem
    rw [← not_or] at hold ⊢
    exact fun hpoint => hold (harrived hpoint)
  unheard := hunheard

open WaitPoint

attribute [local simp] unheard

include h in
lemma Consistent.register (hk : s.waits[k]? = some c)
    (hp : c.point = .unlocked) (hseq : s.sequences c.key = c.seq) :
    Consistent { s.setWait k c .registered with
      monitors := update s.monitors c.key (s.monitors c.key ++ [k])
      arrivals := update s.arrivals c.key (s.arrivals c.key ++ [k]) } := by
  have hc := h.wait k c hk
  have hnew : ∀ key, k ∉ s.arrivals key := fun key hmem => (hc.arrived key hmem).2 hp
  have hout : ∀ key, k ∉ s.monitors key := fun key hmem => hnew key ((h.order key).2.subset hmem)
  refine h.moveWait hk (fun key i hik => ?_) (fun key i hik => ?_) (fun key => ?_)
    (fun key hmem => .inr ?_) ⟨hc.seq_le, hc.released, fun key => ?_, fun key _ => ?_, ?_⟩
  · by_cases hkey : key = c.key <;> simp [hkey, hik]
  · by_cases hkey : key = c.key <;> simp [hkey, hik]
  · by_cases hkey : key = c.key
    · subst hkey
      simp only [update_self]
      exact ⟨nodup_append.2 ⟨(h.order _).1, nodup_singleton k, fun a ha b hb => by
        rintro rfl
        exact hnew _ (mem_singleton.1 hb ▸ ha)⟩, (h.order _).2.append_right [k]⟩
    · simpa only [update_of_ne hkey] using h.order key
  · by_cases hkey : key = c.key
    · rw [hkey, hseq]
    · rw [update_of_ne hkey] at hmem
      exact absurd hmem (hout key)
  · have hflag : c.notified = false := hc.unheard (hp ▸ rfl)
    by_cases hkey : key = c.key
    · simp [hkey, hflag]
    · simpa [hkey] using hout key
  · simp
  · simp

include h in
lemma Consistent.remove (hk : s.waits[k]? = some c) :
    Consistent { s.setWait k c (.done c.notified) with
      monitors := update s.monitors c.key ((s.monitors c.key).filter (· ≠ k)) } := by
  have hc := h.wait k c hk
  have hout : ∀ key,
      k ∉ update s.monitors c.key ((s.monitors c.key).filter (· ≠ k)) key := by
    intro key hmem
    by_cases hkey : key = c.key
    · simp [hkey] at hmem
    · rw [update_of_ne hkey] at hmem
      exact hkey ((hc.queued key).1 hmem).1
  refine h.moveWait hk (fun key i hik => ?_) (fun _ _ _ => id) (fun key => ?_)
    (fun key hmem => absurd hmem (hout key))
    ⟨hc.seq_le, hc.released, fun key => ?_, fun key _ => ?_, ?_⟩
  · by_cases hkey : key = c.key <;> simp [hkey, hik]
  · refine ⟨(h.order key).1, ?_⟩
    by_cases hkey : key = c.key
    · rw [hkey, update_self]
      exact filter_sublist.trans (h.order c.key).2
    · rw [update_of_ne hkey]
      exact (h.order key).2
  · simpa using hout key
  · simp
  · cases c.notified <;> simp

/-! ## Steps of a notification -/

lemma popWaiters_append (all : Bool) (ks : List Nat) :
    (popWaiters all ks).1 ++ (popWaiters all ks).2 = ks := by
  induction ks with
  | nil => rfl
  | cons k ks ih => cases all <;> simp_all [popWaiters]

lemma popWaiters_all (ks : List Nat) : (popWaiters true ks).2 = [] := by
  induction ks with
  | nil => rfl
  | cons k ks ih => simpa [popWaiters] using ih

include h in
lemma Consistent.setNotifies {notifies : List NotifyCall}
    (hnotifies : ∀ n ∈ notifies, s.NotifyOk n) : Consistent { s with notifies := notifies } :=
  ⟨fun k c hk => (h.wait k c hk).frame (Nat.le_refl _) Iff.rfl (fun _ => Iff.rfl) fun _ => id,
    fun n hn => (hnotifies n hn).frame (Nat.le_refl _) fun _ c hk hc => .inr ⟨hk, c, hc, rfl⟩,
    h.known, h.order, h.once⟩

include h in
lemma Consistent.setNotify (hn : s.NotifyOk n) :
    Consistent { s with notifies := s.notifies.set j n } := by
  apply h.setNotifies
  intro n' hn'
  rcases mem_or_eq_of_mem_set hn' with hmem | rfl
  · exact h.notify n' hmem
  · exact hn

include h in
lemma Consistent.advance (key : Nat) : Consistent { s with
      sequences := update s.sequences key (s.sequences key + 1) } := by
  have hle : ∀ key', s.sequences key' ≤
      update s.sequences key (s.sequences key + 1) key' := by
    intro key'
    by_cases hkey : key' = key
    · subst hkey
      simp
    · exact Nat.le_of_eq (update_of_ne hkey _ _).symm
  exact ⟨fun k c hk => (h.wait k c hk).frame (hle _) Iff.rfl (fun _ => Iff.rfl) fun _ => id,
    fun n hn => (h.notify n hn).frame (hle _) fun _ c hk hc => .inr ⟨hk, c, hc, rfl⟩,
    h.known, h.order, h.once⟩

lemma getElem?_release {ks : List Nat} : (s.release ks)[k]? =
      s.waits[k]?.map fun c => if k ∈ ks then { c with notified := true } else c := by
  simp [release]

include h in
lemma Consistent.notifyBucket (hn : n ∈ s.notifies)
    (hp : n.point = .advanced value) : Consistent { s with
      monitors := update s.monitors n.key (popWaiters n.all (s.monitors n.key)).2
      waits := s.release (popWaiters n.all (s.monitors n.key)).1
      notifies := s.notifies.set j { n with point := .returned value }
      releases := s.releases ++ (popWaiters n.all (s.monitors n.key)).1 } := by
  have hsplit := popWaiters_append n.all (s.monitors n.key)
  have hnone : n.all = true → (popWaiters n.all (s.monitors n.key)).2 = [] := fun hall => by
    rw [hall, popWaiters_all]
  generalize (popWaiters n.all (s.monitors n.key)).1 = popped at hsplit hnone ⊢
  generalize (popWaiters n.all (s.monitors n.key)).2 = rest at hsplit hnone ⊢
  have hnodup : (popped ++ rest).Nodup := hsplit ▸ (h.order n.key).2.nodup (h.order n.key).1
  have hpopped : ∀ {k}, k ∈ popped → k ∈ s.monitors n.key := fun hmem =>
    hsplit ▸ mem_append_left rest hmem
  have hrest : ∀ {key k}, k ∈ update s.monitors n.key rest key → k ∈ s.monitors key := by
    intro key k hmem
    by_cases hkey : key = n.key
    · subst hkey
      rw [update_self] at hmem
      exact hsplit ▸ mem_append_right popped hmem
    · rwa [update_of_ne hkey] at hmem
  have hstay : ∀ {key k}, k ∉ popped → k ∈ s.monitors key →
      k ∈ update s.monitors n.key rest key := by
    intro key k hout hin
    by_cases hkey : key = n.key
    · subst hkey
      rw [update_self]
      rw [← hsplit] at hin
      exact (mem_append.1 hin).resolve_left hout
    · rwa [update_of_ne hkey]
  refine ⟨fun k c' hk => ?_, fun n' hn' => ?_, fun k hk => ?_, fun key => ?_, ?_⟩
  · simp only [getElem?_release, map_eq_some_iff] at hk
    obtain ⟨c, hc, rfl⟩ := hk
    have hok := h.wait k c hc
    split
    · rename_i hmem
      -- a released wait is registered, and leaves the only queue it is in
      obtain ⟨hkey, hflag, hpoint⟩ := (hok.queued _).1 (hpopped hmem)
      refine ⟨hok.seq_le, by simp [hmem], fun key => ?_, hok.arrived, fun hunheard => ?_⟩
      · have hout : k ∉ update s.monitors n.key rest key := by
          intro hin
          obtain rfl : key = n.key := ((hok.queued key).1 (hrest hin)).1.trans hkey.symm
          rw [update_self] at hin
          exact (nodup_append.1 hnodup).2.2 k hmem k hin rfl
        simpa using hout
      · rcases hpoint with hpoint | hpoint <;> simp [hpoint] at hunheard
    · rename_i hmem
      exact hok.frame (Nat.le_refl _) (by simp [hmem]) (fun key => ⟨hrest, hstay hmem⟩) fun _ => id
  · rcases mem_or_eq_of_mem_set hn' with hold | rfl
    · refine (h.notify n' hold).frame (Nat.le_refl _) fun k c' hk hc' => .inr ⟨hrest hk, ?_⟩
      simp only [getElem?_release, map_eq_some_iff] at hc'
      obtain ⟨c, hc, rfl⟩ := hc'
      exact ⟨c, hc, by split <;> rfl⟩
    · refine ⟨fun v hv => ?_, fun hall v _ k hmem => ?_⟩
      · obtain rfl : value = v := by simpa using hv
        exact (h.notify n hn).value_le _ (.inl hp)
      · simp [hnone hall] at hmem
  · simp only [release, length_mapIdx]
    rcases hk with hk | hk
    · rcases mem_append.1 hk with hk | hk
      · exact h.known k (.inl hk)
      · exact h.queued_lt (hpopped hk)
    · exact h.known k (.inr hk)
  · refine ⟨(h.order key).1, ?_⟩
    show (update s.monitors n.key rest key).Sublist (s.arrivals key)
    by_cases hkey : key = n.key
    · subst hkey
      rw [update_self]
      exact (hsplit ▸ sublist_append_right popped rest).trans (h.order n.key).2
    · rw [update_of_ne hkey]
      exact (h.order key).2
  · refine nodup_append.2 ⟨h.once, (nodup_append.1 hnodup).1, fun k hk k' hk' => ?_⟩
    rintro rfl
    obtain ⟨c, hc⟩ : ∃ c, s.waits[k]? = some c :=
      ⟨_, getElem?_eq_getElem (h.queued_lt (hpopped hk'))⟩
    have hok := h.wait k c hc
    have hflag := ((hok.queued _).1 (hpopped hk')).2.1
    exact absurd (hok.released.1 hk) (by simp [hflag])

/-! ## Runs -/

lemma Consistent.step (s : CondvarState) (move : CondvarMove) (s' : CondvarState)
    (h : s.Consistent) (hstep : s.step limit move = some s') : s'.Consistent := by
  cases Change.of_step hstep with
  | own owners => exact h.setOwners owners
  | sample thread mutex key timed => exact h.addWait thread mutex key timed
  | @unlock k c owners hk hp =>
    have hc := h.wait k c hk
    refine (h.setWait hk .unlocked (hc.setPoint (by simp [hp]) (by simp [hp]) ?_)).setOwners owners
    exact fun _ => hc.unheard (hp ▸ rfl)
  | @pass k c hk hp =>
    have hc := h.wait k c hk
    exact h.setWait hk (.done true)
      (hc.setPoint (by simp [hp]) (by simp) (by simp))
  | register hk hp hseq => exact h.register hk hp hseq
  | @wake k c hk hp =>
    have hc := h.wait k c hk
    exact h.setWait hk .woken
      (hc.setPoint (by simp [hp]) (by simp) (by simp))
  | remove hk => exact h.remove hk
  | @relock k c result hk hp =>
    have hc := h.wait k c hk
    refine (h.setWait hk (.returned result) (hc.setPoint (by simp [hp]) (by simp) ?_)).setOwners _
    cases result with
    | false => exact fun _ => hc.unheard (hp ▸ rfl)
    | true => simp
  | call thread key all =>
    refine h.setNotifies (forall_mem_append.2 ⟨h.notify, forall_mem_singleton.2 ?_⟩)
    exact ⟨by simp, by simp⟩
  | load current => exact h.setNotify ⟨by simp, by simp⟩
  | @advance j n hj =>
    refine (h.advance n.key).setNotify ⟨fun v hv => ?_, by simp⟩
    obtain rfl : s.sequences n.key + 1 = v := by simpa using hv
    simp
  | bucket hj hp => exact h.notifyBucket (mem_of_getElem? hj) hp

lemma Consistent.run {moves : List CondvarMove}
    (hrun : runSchedule (CondvarState.step limit) moves .new = some s) : s.Consistent :=
  runSchedule_invariant Consistent.step Consistent.new hrun

/-- A wait keeps its key and the sequence it sampled. -/
lemma wait_of_step (hstep : s.step limit move = some s') (hk : s.waits[k]? = some c) :
    ∃ c', s'.waits[k]? = some c' ∧ c'.seq = c.seq ∧ c'.key = c.key := by
  have hkept : ∀ i (c₀ : WaitCall), s.waits[i]? = some c₀ → ∀ point,
      ∃ c', (s.setWait i c₀ point).waits[k]? = some c' ∧ c'.seq = c.seq ∧ c'.key = c.key := by
    intro i c₀ hi point
    rw [setWait, getElem?_set_of_some hi]
    split
    next hik =>
      subst hik
      cases hi.symm.trans hk
      exact ⟨_, rfl, rfl, rfl⟩
    next => exact ⟨c, hk, rfl, rfl⟩
  cases Change.of_step hstep with
  | own | call | load | advance => exact ⟨c, hk, rfl, rfl⟩
  | sample => exact ⟨c, getElem?_concat_old hk, rfl, rfl⟩
  | unlock _ hi | pass hi | register hi | wake hi | remove hi | relock hi => exact hkept _ _ hi _
  | bucket =>
    simp only [getElem?_release, hk, map_some, some.injEq, exists_eq_left']
    split <;> exact ⟨rfl, rfl⟩

/-- The value of a notification was the next one of the sequence when it was advanced. -/
lemma value_of_step (hstep : s.step limit move = some s')
    {n' : NotifyCall} (hj : s'.notifies[j]? = some n')
    (hv : n'.point = .advanced v ∨ n'.point = .returned v) : v = s.sequences n'.key + 1 ∨
      ∃ n, s.notifies[j]? = some n ∧ n.key = n'.key ∧
        (n.point = .advanced v ∨ n.point = .returned v) := by
  cases Change.of_step hstep with
  | own | sample | unlock | pass | register | wake | remove | relock =>
    exact .inr ⟨n', hj, rfl, hv⟩
  | call thread key all =>
    rcases getElem?_concat_cases hj with hj | ⟨-, rfl⟩
    · exact .inr ⟨n', hj, rfl, hv⟩
    · simp at hv
  | @load i n current hi =>
    rcases getElem?_set_cases hj with ⟨-, rfl⟩ | ⟨-, hj⟩
    · simp at hv
    · exact .inr ⟨n', hj, rfl, hv⟩
  | @advance i n hi =>
    rcases getElem?_set_cases hj with ⟨-, rfl⟩ | ⟨-, hj⟩
    · simp only [NotifyPoint.advanced.injEq, reduceCtorEq, or_false] at hv
      exact .inl hv.symm
    · exact .inr ⟨n', hj, rfl, hv⟩
  | @bucket i n value hi hp =>
    rcases getElem?_set_cases hj with ⟨rfl, rfl⟩ | ⟨-, hj⟩
    · obtain rfl : value = v := by simpa using hv
      exact .inr ⟨n, hi, rfl, .inl hp⟩
    · exact .inr ⟨n', hj, rfl, hv⟩

/-- The wait sampled the sequence before the notification advances it. -/
def SampledBefore (k j : Nat) (s : CondvarState) : Prop :=
  ∃ c, s.waits[k]? = some c ∧
    ∀ (n : NotifyCall) (v : Nat), s.notifies[j]? = some n → n.key = c.key →
      n.point = .advanced v ∨ n.point = .returned v → c.seq < v

lemma SampledBefore.step (hs : s.Consistent)
    (h : SampledBefore k j s) (hstep : s.step limit move = some s') : SampledBefore k j s' := by
  obtain ⟨c, hk, hbefore⟩ := h
  obtain ⟨c', hk', hseq, hkey⟩ := wait_of_step hstep hk
  refine ⟨c', hk', fun n' v hj hn hv => ?_⟩
  rw [hkey] at hn
  rw [hseq]
  rcases value_of_step hstep hj hv with rfl | ⟨n, hjn, hnkey, hnv⟩
  · rw [hn]
    exact Nat.lt_succ_of_le (hs.wait k c hk).seq_le
  · exact hbefore n v hjn (hnkey.trans hn) hnv

include h in
/-- A wait that sampled the sequence before a `notifyAll` is not blocked after it. -/
lemma Consistent.not_blocked (hbefore : SampledBefore k j s)
    (hk : s.waits[k]? = some c) (hj : s.notifies[j]? = some n) (hall : n.all = true)
    (hkey : n.key = c.key) (hv : n.point = .returned v) : ¬ s.Blocked k := by
  rintro ⟨c₁, hc₁, hpoint, hflag⟩
  cases hk.symm.trans hc₁
  obtain ⟨c₂, hc₂, hlt⟩ := hbefore
  cases hk.symm.trans hc₂
  -- a blocked wait is in the queue, which such a notification has emptied of older waits
  have hqueued : k ∈ s.monitors n.key := ((h.wait k c hk).queued n.key).2 ⟨hkey, hflag, .inl hpoint⟩
  have hle : v ≤ c.seq := (h.notify n (mem_of_getElem? hj)).heard hall v hv k hqueued c hk
  exact absurd (hlt n v hj hkey (.inr hv)) (Nat.not_lt.2 hle)

lemma proceedNotify_one {i : Nat} {rest : List Nat} (hj : s.notifies[j]? = some n)
    (hp : n.point = .advanced value) (hone : n.all = false) (hqueue : s.monitors n.key = i :: rest)
    (hstep : s.step limit (.proceedNotify j) = some s') :
    s'.releases = s.releases ++ [i] ∧ s'.monitors n.key = rest ∧
      ∀ (k : Nat) (c : WaitCall), s.waits[k]? = some c →
        s'.waits[k]? = some { c with notified := c.notified || decide (k = i) } := by
  simp only [step, proceedNotify, hj, hp, hone, hqueue, popWaiters, some.injEq] at hstep
  subst hstep
  refine ⟨rfl, update_self _ _ _, fun k c hk => ?_⟩
  rw [getElem?_release, hk]
  by_cases hki : k = i <;> simp [hki]

lemma owner_of_returned {result : Bool}
    (hstep : s.step limit move = some s') (hk : s'.waits[k]? = some c)
    (hreturned : c.point = .returned result) (hbefore : ¬ s.Returned k result) :
    s'.owners c.mutex = some c.thread := by
  have hold : s.waits[k]? ≠ some c := fun heq => hbefore ⟨c, heq, hreturned⟩
  have hmoved : ∀ (i : Nat) (c₀ : WaitCall) (point : WaitPoint), s.waits[i]? = some c₀ →
      (s.setWait i c₀ point).waits[k]? = some c → c = { c₀ with point := point } := by
    intro i c₀ point hi hc
    rcases getElem?_set_cases hc with ⟨-, rfl⟩ | ⟨-, hc⟩
    · rfl
    · exact absurd hc hold
  cases Change.of_step hstep with
  | own | call | load | advance => exact absurd hk hold
  | sample thread mutex key timed =>
    rcases getElem?_concat_cases hk with hk | ⟨-, rfl⟩
    · exact absurd hk hold
    · simp at hreturned
  | unlock _ hi | pass hi | register hi | wake hi | remove hi =>
    rw [hmoved _ _ _ hi hk] at hreturned
    simp at hreturned
  | relock hi =>
    rw [hmoved _ _ _ hi hk]
    exact update_self _ _ _
  | bucket =>
    simp only [getElem?_release, map_eq_some_iff] at hk
    obtain ⟨c₀, hc₀, rfl⟩ := hk
    refine absurd ⟨c₀, hc₀, ?_⟩ hbefore
    split at hreturned <;> exact hreturned

end CondvarState

/-! ## No notification is lost -/

/-- In every run of any number of threads over any condition variables and mutexes:

* a wait that sampled the sequence before a `notifyAll` advances it is not blocked once that
  `notifyAll` has returned;
* the waits queued under a key stand in the order in which they registered, a `notifyOne` that finds
  some releases the first one alone, and no wait is released twice;
* a wait that returned `false` was not released;
* a wait returns with its mutex taken;
* a wait that returned is in no queue. -/
theorem condvar_notifications_kept (limit : Nat) (moves : List CondvarMove) (s : CondvarState)
    (hrun : runSchedule (CondvarState.step limit) moves .new = some s) :
    (∀ (moves' : List CondvarMove) (s' : CondvarState) (k j v : Nat) (c : WaitCall)
        (n : NotifyCall), k < s.waits.length → ¬ s.Advanced j →
      runSchedule (CondvarState.step limit) moves' s = some s' → s'.waits[k]? = some c →
      s'.notifies[j]? = some n → n.all = true → n.key = c.key → n.point = .returned v →
      ¬ s'.Blocked k) ∧
    (∀ key, (s.arrivals key).Nodup ∧ (s.monitors key).Sublist (s.arrivals key)) ∧
    (∀ (j v i : Nat) (rest : List Nat) (n : NotifyCall) (s' : CondvarState),
      s.notifies[j]? = some n → n.point = .advanced v → n.all = false →
      s.monitors n.key = i :: rest → s.step limit (.proceedNotify j) = some s' →
      s'.releases = s.releases ++ [i] ∧ s'.monitors n.key = rest ∧
        ∀ (k : Nat) (c : WaitCall), s.waits[k]? = some c →
          s'.waits[k]? = some { c with notified := c.notified || decide (k = i) }) ∧
    s.releases.Nodup ∧
    (∀ k, s.Returned k false → k ∉ s.releases) ∧
    (∀ (move : CondvarMove) (s' : CondvarState) (k : Nat) (c : WaitCall) (result : Bool),
      s.step limit move = some s' → s'.waits[k]? = some c → c.point = .returned result →
      ¬ s.Returned k result → s'.owners c.mutex = some c.thread) ∧
    (∀ k result key, s.Returned k result → k ∉ s.monitors key) := by
  have hs := CondvarState.Consistent.run hrun
  refine ⟨?_, hs.order, ?_, hs.once, ?_, ?_, ?_⟩
  · intro moves' s' k j v c n hlt hnot hrun' hk hj hall hkey hv
    have hbefore : CondvarState.SampledBefore k j s :=
      ⟨_, getElem?_eq_getElem hlt, fun n v hjn _ hv => absurd ⟨n, v, hjn, hv⟩ hnot⟩
    -- both the invariant and the order of the two calls are kept by the later run
    have hkept : ∀ (s : CondvarState) (move : CondvarMove) (s' : CondvarState),
        s.Consistent ∧ CondvarState.SampledBefore k j s → s.step limit move = some s' →
        s'.Consistent ∧ CondvarState.SampledBefore k j s' := fun s move s' h hstep =>
      ⟨h.1.step s move s' hstep, h.2.step h.1 hstep⟩
    obtain ⟨hs', hbefore'⟩ := runSchedule_invariant hkept ⟨hs, hbefore⟩ hrun'
    exact hs'.not_blocked hbefore' hk hj hall hkey hv
  · intro j v i rest n s' hj hp hone hqueue hstep
    exact CondvarState.proceedNotify_one hj hp hone hqueue hstep
  · rintro k ⟨c, hk, hp⟩ hmem
    have hc := hs.wait k c hk
    have hflag := hc.unheard (hp ▸ rfl)
    exact absurd (hc.released.1 hmem) (by simp [hflag])
  · intro move s' k c result hstep hk hp hbefore
    exact CondvarState.owner_of_returned hstep hk hp hbefore
  · rintro k result key ⟨c, hk, hp⟩ hmem
    have hpoint := (((hs.wait k c hk).queued key).1 hmem).2.2
    simp [hp] at hpoint

/-- A wait that has released its mutex but not registered yet when another thread calls
`notifyAll`. -/
theorem condvar_notifications_kept_early :
    ∃ s s', runSchedule (CondvarState.step 4) [.lock 0 0, .wait 0 0 0 true, .proceedWait 0] .new =
        some s ∧ s.waits.length = 1 ∧ ¬ s.Advanced 0 ∧
      runSchedule (CondvarState.step 4) [.notify 1 0 true, .proceedNotify 0, .proceedNotify 0,
        .proceedWait 0, .proceedNotify 0] s = some s' ∧ ¬ s'.Blocked 0 := by
  refine ⟨_, _, rfl, rfl, ?_, rfl, ?_⟩
  · rintro ⟨n, v, hn, -⟩
    cases hn
  apply (condvar_notifications_kept 4 [.lock 0 0, .wait 0 0 0 true, .proceedWait 0] _ rfl).1
    [.notify 1 0 true, .proceedNotify 0, .proceedNotify 0, .proceedWait 0, .proceedNotify 0] _ 0 0 1
    ⟨0, 0, 0, true, 0, .done true, false⟩ ⟨1, 0, true, .returned 1⟩
      (by decide) _ rfl rfl rfl rfl rfl
    rfl
  rintro ⟨n, v, hn, -⟩
  cases hn

end Arandu.Runtime
