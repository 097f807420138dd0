import Arandu.Library.Schedule
import Arandu.Library.Table

/-!
# The process supervisor

`supervisor_runtime.rs`: a supervisor owns worker processes, one per slot. `poll` restarts a worker
that has exited while its budget lasts, `wait` and `kill` reap it, and `destroy` closes the
supervisor and kills and reaps every worker.

`poll` looks at the slot, starts the replacement and stores it in three separate steps. Between
them the replacement belongs to the call, which stores it or, if the supervisor has been closed,
kills and reaps it. A call in progress is therefore part of the state (`SupervisorCall`).

The state also keeps a log of the replacements that were stored. No step reads it; the budget is
stated about the log, and the counters of the workers are shown to agree with it.
-/

namespace Arandu.Runtime

open Arandu.Library List Option

/-! ## Processes, slots and calls -/

/-- A child process; the code is the exit code if there is one. -/
inductive ProcessStatus where
  | running
  /-- exited and not yet waited for -/
  | exited (code : Option Int)
  | reaped (code : Option Int)
deriving DecidableEq, Repr

/-- `Worker`; the children are numbered as they are spawned. -/
structure SupervisedWorker where
  child : Nat
  restarts : Nat
  maxRestarts : Nat
deriving DecidableEq, Repr

/-- What is left of a call. -/
inductive SupervisorCall where
  /-- `poll` is about to start a replacement for the slot -/
  | restart (worker : Nat)
  /-- `poll` is about to store the replacement -/
  | store (worker child : Nat)
  /-- the replacement is to be killed -/
  | discard (child : Nat)
  /-- the killed child is to be waited for, before the call returns the result -/
  | reap (child : Nat) (result : Int)
  | waiting (child : Nat)
  | killing (child : Nat)
  /-- `destroy` has these workers left -/
  | destroying (children : List Nat)
  /-- `destroy` has killed the child -/
  | destroyed (child : Nat) (rest : List Nat)
  | returned (result : Int)
deriving DecidableEq, Repr

structure SupervisorState where
  workers : List (Option SupervisedWorker)
  closed : Bool
  processes : List ProcessStatus
  calls : List SupervisorCall
  /-- the slots in which a replacement was stored, once for each; not in the source -/
  stored : List Nat
deriving DecidableEq, Repr

def SupervisorState.create : SupervisorState := ⟨[], false, [], [], []⟩

/-- `Child::kill`. -/
def killProcess (processes : List ProcessStatus) (child : Nat) : List ProcessStatus :=
  match processes[child]? with
  | some .running => processes.set child (.exited none)
  | _ => processes

/-- `Child::wait`: blocks while the process runs. -/
def waitProcess (processes : List ProcessStatus) (child : Nat) :
    Option (List ProcessStatus × Option Int) :=
  match processes[child]? with
  | some (.exited code) => some (processes.set child (.reaped code), code)
  | some (.reaped code) => some (processes, code)
  | _ => none

namespace SupervisorState

variable (s : SupervisorState) (worker : Nat)

def slot : Option SupervisedWorker :=
  if s.closed then none
  else
    match s.workers[worker]? with
    | some (some w) => some w
    | _ => none

def enter (call : SupervisorCall) : SupervisorState := { s with calls := s.calls ++ [call] }

/-- The first free slot takes the worker, or a new one at the end. -/
def place (w : SupervisedWorker) : List (Option SupervisedWorker) → List (Option SupervisedWorker)
  | [] => [some w]
  | none :: rest => some w :: rest
  | some w' :: rest => some w' :: place w rest

/-- `ar_rt_supervisor_spawn` of a valid path; `ok` says whether the process starts. -/
def spawn (maxRestarts : Nat) (ok : Bool) : SupervisorState :=
  if s.closed then s.enter (.returned (-1))
  else if !ok then s.enter (.returned (-1))
  else
    let w : SupervisedWorker := ⟨s.processes.length, 0, maxRestarts⟩
    { s with
      workers := place w s.workers
      processes := s.processes ++ [.running]
      calls := s.calls ++ [.returned (s.workers.findIdx Option.isNone)] }

/-- The first part of `ar_rt_supervisor_poll`; `ok` says whether `try_wait` succeeds. -/
def poll (ok : Bool) : SupervisorState :=
  match s.slot worker with
  | none => s.enter (.returned (-1))
  | some w =>
    if !ok then s.enter (.returned (-1))
    else
      match waitProcess s.processes w.child with
      | none => s.enter (.returned 0)
      | some (processes, _) =>
        let s := { s with processes := processes }
        if w.restarts < w.maxRestarts then s.enter (.restart worker) else s.enter (.returned 1)

/-- The first part of `ar_rt_supervisor_wait`. -/
def wait : SupervisorState :=
  match s.slot worker with
  | none => s.enter (.returned (-1))
  | some w => s.enter (.waiting w.child)

/-- The first part of `ar_rt_supervisor_kill`. -/
def kill : SupervisorState :=
  match s.slot worker with
  | none => s.enter (.returned (-1))
  | some w => s.enter (.killing w.child)

/-- The first part of `ar_rt_supervisor_destroy`. -/
def destroy : SupervisorState :=
  { s with
    workers := []
    closed := true
    calls := s.calls ++ [.destroying ((s.workers.filterMap id).map SupervisedWorker.child)] }

/-- A call goes on; `ok` says whether the operating system does what it asks. -/
def proceed (k : Nat) (ok : Bool) : Option SupervisorState :=
  match s.calls[k]? with
  | none => none
  | some call =>
    match call with
    | .restart worker =>
      if ok then
        some { s with
          processes := s.processes ++ [.running]
          calls := s.calls.set k (.store worker s.processes.length) }
      else some { s with calls := s.calls.set k (.returned 1) }
    | .store worker child =>
      match s.slot worker with
      | some w =>
        some { s with
          workers := s.workers.set worker
            (some { w with child := child, restarts := w.restarts + 1 })
          calls := s.calls.set k (.returned 2)
          stored := worker :: s.stored }
      | none => some { s with calls := s.calls.set k (.discard child) }
    | .discard child =>
      some { s with
        processes := if ok then killProcess s.processes child else s.processes
        calls := s.calls.set k (.reap child (-1)) }
    | .reap child result =>
      match waitProcess s.processes child with
      | none => none
      | some (processes, _) =>
        some { s with processes := processes, calls := s.calls.set k (.returned result) }
    | .waiting child =>
      match waitProcess s.processes child with
      | none => none
      | some (processes, code) =>
        some { s with processes := processes, calls := s.calls.set k (.returned (code.getD (-1))) }
    | .killing child =>
      if ok then
        some { s with
          processes := killProcess s.processes child
          calls := s.calls.set k (.reap child 0) }
      else some { s with calls := s.calls.set k (.returned (-1)) }
    | .destroying [] => some { s with calls := s.calls.set k (.returned 0) }
    | .destroying (child :: rest) =>
      some { s with
        processes := if ok then killProcess s.processes child else s.processes
        calls := s.calls.set k (.destroyed child rest) }
    | .destroyed child rest =>
      match waitProcess s.processes child with
      | none => none
      | some (processes, _) =>
        some { s with processes := processes, calls := s.calls.set k (.destroying rest) }
    | .returned _ => none

end SupervisorState

inductive SupervisorMove where
  | spawn (maxRestarts : Nat) (ok : Bool)
  | poll (worker : Nat) (ok : Bool)
  | wait (worker : Nat)
  | kill (worker : Nat)
  | destroy
  /-- the call with the given number goes on -/
  | proceed (k : Nat) (ok : Bool)
  /-- a process exits -/
  | exit (child : Nat) (code : Option Int)
deriving DecidableEq, Repr

variable (s : SupervisorState)

def SupervisorState.step : SupervisorMove → Option SupervisorState
  | .spawn maxRestarts ok => some (s.spawn maxRestarts ok)
  | .poll worker ok => some (s.poll worker ok)
  | .wait worker => some (s.wait worker)
  | .kill worker => some (s.kill worker)
  | .destroy => some s.destroy
  | .proceed k ok => s.proceed k ok
  | .exit child code =>
    match s.processes[child]? with
    | some .running => some { s with processes := s.processes.set child (.exited code) }
    | _ => none

/-! ## What the supervisor owes its children -/

/-- The process has been waited for. -/
def Reaped (processes : List ProcessStatus) (child : Nat) : Prop :=
  ∃ code, processes[child]? = some (.reaped code)

/-- The child belongs to a live slot. -/
def SupervisorState.Owns (child : Nat) : Prop :=
  ∃ worker w, s.slot worker = some w ∧ w.child = child

def SupervisorCall.Holds (call : SupervisorCall) (child : Nat) : Prop :=
  match call with
  | .store _ c | .discard c | .reap c _ => c = child
  | .destroying children => child ∈ children
  | .destroyed c rest => c = child ∨ child ∈ rest
  | _ => False

def SupervisorCall.Restarts (call : SupervisorCall) (worker : Nat) : Prop :=
  match call with
  | .restart w | .store w _ => w = worker
  | _ => False

/-- `poll` is called on a slot that no other call of `poll` is restarting. -/
def PollsApart (move : SupervisorMove) : Prop :=
  ∀ worker ok, move = .poll worker ok → ∀ call ∈ s.calls, ¬ call.Restarts worker

/-! ## Processes only move forward -/

/-- Later processes: more of them, and what was reaped stays so. -/
structure Later (processes processes' : List ProcessStatus) : Prop where
  length : processes.length ≤ processes'.length
  reaped : ∀ c, Reaped processes c → Reaped processes' c

section Processes

variable {processes processes' : List ProcessStatus} {child : Nat}

lemma Later.refl (processes : List ProcessStatus) : Later processes processes :=
  ⟨Nat.le_refl _, fun _ => id⟩

lemma Later.set {status : ProcessStatus} (hlive : ¬ Reaped processes child) :
    Later processes (processes.set child status) where
  length := Nat.le_of_eq length_set.symm
  reaped c hreaped := by
    obtain ⟨code, hcode⟩ := hreaped
    refine ⟨code, ?_⟩
    rw [getElem?_set_ne, hcode]
    intro heq
    exact hlive ⟨code, heq ▸ hcode⟩

lemma Later.kill (processes : List ProcessStatus) (child : Nat) :
    Later processes (killProcess processes child) ∧
      (killProcess processes child).length = processes.length := by
  unfold killProcess
  split
  next hrunning =>
    refine ⟨Later.set ?_, length_set⟩
    rintro ⟨code, hcode⟩
    rw [hrunning] at hcode
    cases hcode
  next => exact ⟨Later.refl _, rfl⟩

lemma Later.wait {code : Option Int}
    (hwait : waitProcess processes child = some (processes', code)) :
    Later processes processes' ∧ processes'.length = processes.length ∧
      Reaped processes' child := by
  unfold waitProcess at hwait
  split at hwait
  next code' hexited =>
    obtain ⟨rfl, -⟩ := Prod.mk.inj (some.inj hwait)
    refine ⟨Later.set ?_, length_set, ⟨code', ?_⟩⟩
    · rintro ⟨code, hcode⟩
      rw [hexited] at hcode
      cases hcode
    · exact getElem?_set_at hexited
  next code' hreaped =>
    obtain ⟨rfl, -⟩ := Prod.mk.inj (some.inj hwait)
    exact ⟨Later.refl _, rfl, ⟨code', hreaped⟩⟩
  next => cases hwait

lemma Later.append (processes : List ProcessStatus) (status : ProcessStatus) :
    Later processes (processes ++ [status]) where
  length := by simp
  reaped c hreaped := by
    obtain ⟨code, hcode⟩ := hreaped
    exact ⟨code, getElem?_concat_old hcode⟩

end Processes

/-! ## The invariant -/

/-- Restarts stay within the budget, at most one call restarts a slot, and no child is lost. -/
structure SupervisorInv (s : SupervisorState) : Prop where
  /-- the counter of a worker is the number of replacements it got -/
  slots : ∀ i w, s.slot i = some w → s.stored.count i = w.restarts ∧ w.restarts ≤ w.maxRestarts
  /-- a free slot has never been filled -/
  fresh : s.closed = false → ∀ i, s.slot i = none → i ∉ s.stored
  apart : ∀ (k k' : Nat) (call call' : SupervisorCall) (i : Nat), s.calls[k]? = some call →
    s.calls[k']? = some call' → call.Restarts i → call'.Restarts i → k = k'
  /-- a slot under restart has budget left, and its child is reaped -/
  ready : ∀ call ∈ s.calls, ∀ i, call.Restarts i → s.closed = true ∨
    ∃ w, s.slot i = some w ∧ w.restarts < w.maxRestarts ∧ Reaped s.processes w.child
  accounted : ∀ c < s.processes.length,
    Reaped s.processes c ∨ s.Owns c ∨ ∃ call ∈ s.calls, call.Holds c

section Inv

variable {s s' : SupervisorState} {w : SupervisedWorker} {i : Nat}

lemma SupervisorState.Owns.congr {c : Nat} (howns : s.Owns c)
    (hslot : ∀ i, s'.slot i = s.slot i) : s'.Owns c := by
  obtain ⟨i, w, hw, hchild⟩ := howns
  exact ⟨i, w, (hslot i).trans hw, hchild⟩

lemma ready_mono (hready : s.closed = true ∨
      ∃ w, s.slot i = some w ∧ w.restarts < w.maxRestarts ∧ Reaped s.processes w.child)
    (hlater : Later s.processes s'.processes) (hclosed : s'.closed = s.closed)
    (hslot : ∀ i, s'.slot i = s.slot i) : s'.closed = true ∨
      ∃ w, s'.slot i = some w ∧ w.restarts < w.maxRestarts ∧ Reaped s'.processes w.child := by
  rcases hready with hc | ⟨w, hw, hlt, hreaped⟩
  · exact .inl (hclosed.trans hc)
  · exact .inr ⟨w, (hslot i).trans hw, hlt, hlater.reaped _ hreaped⟩

section

variable (hi : SupervisorInv s)
include hi

open SupervisorInv

variable {call : SupervisorCall}

lemma SupervisorInv.enter (hlater : Later s.processes s'.processes)
    (hlength : s'.processes.length = s.processes.length) (hclosed : s'.closed = s.closed)
    (hslot : ∀ i, s'.slot i = s.slot i) (hstored : s'.stored = s.stored)
    (hcalls : s'.calls = s.calls ++ [call])
    (hapart : ∀ i, call.Restarts i → ∀ call' ∈ s.calls, ¬ call'.Restarts i)
    (hready : ∀ i, call.Restarts i → s'.closed = true ∨
      ∃ w, s'.slot i = some w ∧ w.restarts < w.maxRestarts ∧ Reaped s'.processes w.child) :
    SupervisorInv s' where
  slots i w hw := by
    rw [hstored]
    exact hi.slots i w ((hslot i).symm.trans hw)
  fresh hopen i hnone := by
    rw [hstored]
    exact hi.fresh (hclosed.symm.trans hopen) i ((hslot i).symm.trans hnone)
  apart k k' call₁ call₂ i h₁ h₂ hr₁ hr₂ := by
    rw [hcalls] at h₁ h₂
    rcases getElem?_concat_cases h₁ with h₁ | ⟨rfl, rfl⟩ <;>
      rcases getElem?_concat_cases h₂ with h₂ | ⟨rfl, rfl⟩
    · exact hi.apart k k' call₁ call₂ i h₁ h₂ hr₁ hr₂
    · exact absurd hr₁ (hapart i hr₂ call₁ (mem_of_getElem? h₁))
    · exact absurd hr₂ (hapart i hr₁ call₂ (mem_of_getElem? h₂))
    · rfl
  ready call' hcall' i hrestarts := by
    rw [hcalls, mem_append, mem_singleton] at hcall'
    rcases hcall' with hold | rfl
    · exact ready_mono (hi.ready call' hold i hrestarts) hlater hclosed hslot
    · exact hready i hrestarts
  accounted c hc := by
    rw [hlength] at hc
    rcases hi.accounted c hc with hreaped | howns | ⟨call', hcall', hholds⟩
    · exact .inl (hlater.reaped c hreaped)
    · exact .inr (.inl (howns.congr hslot))
    · refine .inr (.inr ⟨call', ?_, hholds⟩)
      rw [hcalls]
      exact mem_append_left _ hcall'

lemma SupervisorInv.goOn {k : Nat} {call' : SupervisorCall}
    (hlater : Later s.processes s'.processes) (hclosed : s'.closed = s.closed)
    (hslot : ∀ i, s'.slot i = s.slot i) (hstored : s'.stored = s.stored)
    (hcall : s.calls[k]? = some call)
    (hcalls : s'.calls = s.calls.set k call') (hrestarts : ∀ i, call'.Restarts i → call.Restarts i)
    (hholds : ∀ c, call.Holds c → Reaped s'.processes c ∨ call'.Holds c)
    (hnew : ∀ c, s.processes.length ≤ c → c < s'.processes.length → call'.Holds c) :
    SupervisorInv s' := by
  -- the restarts of the new calls are restarts of the old ones
  have hold (j : Nat) (c : SupervisorCall) (hj : s'.calls[j]? = some c) :
      ∃ c', s.calls[j]? = some c' ∧ ∀ i, c.Restarts i → c'.Restarts i := by
    rw [hcalls] at hj
    rcases getElem?_set_cases hj with ⟨rfl, rfl⟩ | ⟨-, hj⟩
    · exact ⟨call, hcall, hrestarts⟩
    · exact ⟨c, hj, fun _ => id⟩
  have hmem' : call' ∈ s'.calls := by
    rw [hcalls]
    exact mem_of_getElem? (getElem?_set_at hcall)
  refine ⟨fun i w hw => ?_, fun hopen i hnone => ?_, ?_, ?_, ?_⟩
  · rw [hstored]
    exact hi.slots i w ((hslot i).symm.trans hw)
  · rw [hstored]
    exact hi.fresh (hclosed.symm.trans hopen) i ((hslot i).symm.trans hnone)
  · intro j j' c₁ c₂ i h₁ h₂ hr₁ hr₂
    obtain ⟨c₁', h₁', hr₁'⟩ := hold j c₁ h₁
    obtain ⟨c₂', h₂', hr₂'⟩ := hold j' c₂ h₂
    exact hi.apart j j' c₁' c₂' i h₁' h₂' (hr₁' i hr₁) (hr₂' i hr₂)
  · intro c hc i hr
    obtain ⟨j, hj⟩ := mem_iff_getElem?.1 hc
    obtain ⟨c', hc', hr'⟩ := hold j c hj
    exact ready_mono (hi.ready c' (mem_of_getElem? hc') i (hr' i hr)) hlater hclosed hslot
  · intro c hc
    by_cases hlt : c < s.processes.length
    · rcases hi.accounted c hlt with hreaped | howns | ⟨call₁, hcall₁, hheld⟩
      · exact .inl (hlater.reaped c hreaped)
      · exact .inr (.inl (howns.congr hslot))
      · obtain ⟨j, hj⟩ := mem_iff_getElem?.1 hcall₁
        by_cases hjk : k = j
        · subst hjk
          cases hcall.symm.trans hj
          exact (hholds c hheld).imp_right fun h => .inr ⟨call', hmem', h⟩
        · refine .inr (.inr ⟨call₁, ?_, hheld⟩)
          rw [hcalls]
          exact mem_set_of_ne hjk hj
    · exact .inr (.inr ⟨call', hmem', hnew c (Nat.le_of_not_lt hlt) hc⟩)

/-- A call that is over, or that only looks at a child, restarts nothing. -/
lemma SupervisorInv.enterQuiet (hquiet : ∀ i, ¬ call.Restarts i) :
    SupervisorInv (s.enter call) :=
  hi.enter (Later.refl _) rfl rfl (fun _ => rfl) rfl rfl (fun i h => absurd h (hquiet i))
    fun i h => absurd h (hquiet i)

lemma SupervisorInv.poll {worker : Nat} {ok : Bool} (hpolls : PollsApart s (.poll worker ok)) :
    SupervisorInv (s.poll worker ok) := by
  unfold SupervisorState.poll
  split
  · exact hi.enterQuiet fun _ => id
  next w hw =>
    split
    · exact hi.enterQuiet fun _ => id
    split
    · exact hi.enterQuiet fun _ => id
    next processes code hwait =>
      obtain ⟨hlater, hlength, hreaped⟩ := Later.wait hwait
      split
      next hbudget =>
        refine hi.enter hlater hlength rfl (fun _ => rfl) rfl rfl ?_ ?_
        · rintro i rfl call' hcall'
          exact hpolls worker ok rfl call' hcall'
        · rintro i rfl
          exact .inr ⟨w, hw, hbudget, hreaped⟩
      next =>
        exact hi.enter hlater hlength rfl (fun _ => rfl) rfl rfl nofun nofun

end

lemma SupervisorState.place_spec (w : SupervisedWorker) (workers : List (Option SupervisedWorker)) :
    (∀ (i : Nat) w', workers[i]? = some (some w') → (place w workers)[i]? = some (some w')) ∧
      (∃ j : Nat, (place w workers)[j]? = some (some w)) ∧
      ∀ (i : Nat) w', (place w workers)[i]? = some (some w') → workers[i]? = some (some w') ∨
      (w' = w ∧ ∀ w₀, workers[i]? ≠ some (some w₀)) := by
  induction workers with
  | nil =>
    refine ⟨by simp, ⟨0, rfl⟩, fun i w' h => .inr ⟨?_, nofun⟩⟩
    have := mem_singleton.1 (mem_of_getElem? h)
    exact some.inj this
  | cons slot rest ih =>
    obtain ⟨hkeeps, ⟨j, hj⟩, honly⟩ := ih
    cases slot with
    | none =>
      refine ⟨?_, ⟨0, rfl⟩, ?_⟩
      · intro i w' h
        cases i with
        | zero => cases h
        | succ i => exact h
      · intro i w' h
        cases i with
        | zero => exact .inr ⟨(some.inj (some.inj h)).symm, nofun⟩
        | succ i => exact .inl h
    | some w₀ =>
      refine ⟨?_, ⟨j + 1, hj⟩, ?_⟩
      · intro i w' h
        cases i with
        | zero => exact h
        | succ i => exact hkeeps i w' h
      · intro i w' h
        cases i with
        | zero => exact .inl h
        | succ i => exact honly i w' h

lemma slot_eq_some : s.slot i = some w ↔ s.closed = false ∧ s.workers[i]? = some (some w) := by
  unfold SupervisorState.slot
  cases s.closed with
  | true => simp
  | false =>
    simp only [Bool.false_eq_true, if_false, true_and]
    constructor
    · intro h
      split at h
      next w' hw' => rw [hw', some.inj h]
      next => cases h
    · intro h
      rw [h]

lemma slot_eq_none (hnone : ∀ w, s.workers[i]? ≠ some (some w)) : s.slot i = none :=
  eq_none_iff_forall_ne_some.2 fun w hw => hnone w (slot_eq_some.1 hw).2

/-- A restart is none of a quiet call that has just entered. -/
lemma getElem?_of_restarts {calls : List SupervisorCall} {new call : SupervisorCall}
    {k : Nat} (hquiet : ∀ i, ¬ new.Restarts i) (hk : (calls ++ [new])[k]? = some call)
    (hrestarts : call.Restarts i) : calls[k]? = some call := by
  rcases getElem?_concat_cases hk with hk | ⟨-, rfl⟩
  · exact hk
  · exact absurd hrestarts (hquiet i)

section

variable (hi : SupervisorInv s)
include hi

lemma SupervisorInv.spawn {maxRestarts : Nat} {ok : Bool} :
    SupervisorInv (s.spawn maxRestarts ok) := by
  unfold SupervisorState.spawn
  split
  · exact hi.enterQuiet fun _ => id
  next hopen =>
    split
    · exact hi.enterQuiet fun _ => id
    have hopen : s.closed = false := Bool.eq_false_iff.2 hopen
    obtain ⟨hkeeps, ⟨j, hj⟩, honly⟩ :=
      SupervisorState.place_spec ⟨s.processes.length, 0, maxRestarts⟩ s.workers
    have hlater := Later.append s.processes .running
    generalize (s.workers.findIdx Option.isNone : Int) = result
    -- the old slots are where they were
    have hslot {i : Nat} {w : SupervisedWorker} (hw : s.slot i = some w) :
        SupervisorState.slot { s with
          workers := SupervisorState.place ⟨s.processes.length, 0, maxRestarts⟩ s.workers
          calls := s.calls ++ [.returned result] } i = some w :=
      slot_eq_some.2 ⟨hopen, hkeeps i w (slot_eq_some.1 hw).2⟩
    have hquiet : ∀ i, ¬ (SupervisorCall.returned result).Restarts i := fun _ => id
    refine ⟨?_, ?_, ?_, ?_, ?_⟩
    · intro i w hw
      rcases honly i w (slot_eq_some.1 hw).2 with hold | ⟨rfl, hfree⟩
      · exact hi.slots i w (slot_eq_some.2 ⟨hopen, hold⟩)
      · -- nothing has been stored in a free slot
        exact ⟨count_eq_zero.2 (hi.fresh hopen i (slot_eq_none hfree)), Nat.zero_le _⟩
    · intro _ i hnone
      refine hi.fresh hopen i (eq_none_iff_forall_ne_some.2 fun w hw => ?_)
      cases (hslot hw).symm.trans hnone
    · intro k k' call call' i h h' hr hr'
      exact hi.apart k k' call call' i (getElem?_of_restarts hquiet h hr)
        (getElem?_of_restarts hquiet h' hr') hr hr'
    · intro call hmem i hr
      obtain ⟨k, hk⟩ := mem_iff_getElem?.1 hmem
      have hmem := mem_of_getElem? (getElem?_of_restarts hquiet hk hr)
      rcases hi.ready call hmem i hr with hclosed | ⟨w, hw, hlt, hreaped⟩
      · exact .inl hclosed
      · exact .inr ⟨w, hslot hw, hlt, hlater.reaped _ hreaped⟩
    · intro c hc
      have hc' : c < s.processes.length ∨ c = s.processes.length := by
        rw [length_append, length_singleton] at hc
        omega
      rcases hc' with hlt | rfl
      · rcases hi.accounted c hlt with hreaped | ⟨i, w, hw, hchild⟩ | ⟨call, hmem, hholds⟩
        · exact .inl (hlater.reaped c hreaped)
        · exact .inr (.inl ⟨i, w, hslot hw, hchild⟩)
        · exact .inr (.inr ⟨call, mem_append_left _ hmem, hholds⟩)
      · exact .inr (.inl ⟨j, _, slot_eq_some.2 ⟨hopen, hj⟩, rfl⟩)

lemma SupervisorInv.destroy : SupervisorInv s.destroy where
  slots i w hw := by
    have := (slot_eq_some.1 hw).1
    cases this
  fresh hopen := by cases hopen
  apart k k' call call' i h h' hr hr' :=
    hi.apart k k' call call' i (getElem?_of_restarts (fun _ => id) h hr)
      (getElem?_of_restarts (fun _ => id) h' hr') hr hr'
  ready call hmem i hr := .inl rfl
  accounted c hc := by
    rcases hi.accounted c hc with hreaped | ⟨i, w, hw, rfl⟩ | ⟨call, hmem, hholds⟩
    · exact .inl hreaped
    · -- the workers are now in the hands of the call
      refine .inr (.inr ⟨_, mem_append_right _ mem_cons_self, ?_⟩)
      refine mem_map.2 ⟨w, mem_filterMap.2 ⟨some w, ?_, rfl⟩, rfl⟩
      exact mem_of_getElem? (slot_eq_some.1 hw).2
    · exact .inr (.inr ⟨call, mem_append_left _ hmem, hholds⟩)

lemma SupervisorInv.store {k worker child : Nat}
    (hcall : s.calls[k]? = some (.store worker child)) (hw : s.slot worker = some w) :
    SupervisorInv { s with
      workers := s.workers.set worker (some { w with child := child, restarts := w.restarts + 1 })
      calls := s.calls.set k (.returned 2)
      stored := worker :: s.stored } := by
  obtain ⟨hopen, hget⟩ := slot_eq_some.1 hw
  -- the budget was checked and the old child reaped when the restart began
  obtain ⟨hbudget, hreaped⟩ : w.restarts < w.maxRestarts ∧ Reaped s.processes w.child := by
    rcases hi.ready _ (mem_of_getElem? hcall) worker rfl with hclosed | ⟨w', hw', hready⟩
    · rw [hopen] at hclosed
      cases hclosed
    · rw [some.inj (hw.symm.trans hw')]
      exact hready
  generalize hs' : ({ s with
      workers := s.workers.set worker (some { w with child := child, restarts := w.restarts + 1 })
      calls := s.calls.set k (.returned 2)
      stored := worker :: s.stored } : SupervisorState) = s'
  have hslot {i : Nat} (hne : worker ≠ i) (w' : SupervisedWorker) :
      s'.slot i = some w' ↔ s.slot i = some w' := by
    rw [slot_eq_some, slot_eq_some, ← hs']
    rw [getElem?_set_ne hne]
  have hself : s'.slot worker = some { w with child := child, restarts := w.restarts + 1 } := by
    rw [slot_eq_some, ← hs']
    exact ⟨hopen, getElem?_set_at hget⟩
  have hprocesses : s'.processes = s.processes := by rw [← hs']
  have hcalls : s'.calls = s.calls.set k (.returned 2) := by rw [← hs']
  have hstored : s'.stored = worker :: s.stored := by rw [← hs']
  -- a call that still restarts something is an old one, and restarts another slot
  have hold {j i : Nat} {call : SupervisorCall} (hj : s'.calls[j]? = some call)
      (hr : call.Restarts i) : s.calls[j]? = some call ∧ worker ≠ i := by
    rw [hcalls] at hj
    rcases getElem?_set_cases hj with ⟨-, rfl⟩ | ⟨hkj, hj⟩
    · exact False.elim hr
    · refine ⟨hj, ?_⟩
      rintro rfl
      exact hkj (hi.apart k j _ call worker hcall hj rfl hr)
  refine ⟨?_, ?_, ?_, ?_, ?_⟩
  · intro i w' hw'
    rw [hstored]
    by_cases hne : worker = i
    · subst hne
      rw [← some.inj (hself.symm.trans hw'), count_cons_self, (hi.slots worker w hw).1]
      exact ⟨rfl, hbudget⟩
    · rw [count_cons_of_ne hne]
      exact hi.slots i w' ((hslot hne w').1 hw')
  · intro _ i hnone
    have hne : worker ≠ i := by
      rintro rfl
      cases hself.symm.trans hnone
    rw [hstored, mem_cons, not_or]
    refine ⟨hne.symm, hi.fresh hopen i (eq_none_iff_forall_ne_some.2 fun w' hw' => ?_)⟩
    cases ((hslot hne w').2 hw').symm.trans hnone
  · intro j j' call call' i h h' hr hr'
    exact hi.apart j j' call call' i (hold h hr).1 (hold h' hr').1 hr hr'
  · intro call hmem i hr
    obtain ⟨j, hj⟩ := mem_iff_getElem?.1 hmem
    obtain ⟨hj, hne⟩ := hold hj hr
    rcases hi.ready call (mem_of_getElem? hj) i hr with hclosed | ⟨w', hw', hlt, hreaped'⟩
    · rw [hopen] at hclosed
      cases hclosed
    · exact .inr ⟨w', (hslot hne w').2 hw', hlt, by rwa [hprocesses]⟩
  · intro c hc
    rw [hprocesses] at hc ⊢
    rcases hi.accounted c hc with hreaped' | ⟨i, w', hw', rfl⟩ | ⟨call, hmem, hholds⟩
    · exact .inl hreaped'
    · by_cases hne : worker = i
      · subst hne
        rw [← some.inj (hw.symm.trans hw')]
        exact .inl hreaped
      · exact .inr (.inl ⟨i, w', (hslot hne w').2 hw', rfl⟩)
    · obtain ⟨j, hj⟩ := mem_iff_getElem?.1 hmem
      by_cases hkj : k = j
      · subst hkj
        rw [← some.inj (hcall.symm.trans hj)] at hholds
        exact .inr (.inl ⟨worker, _, hself, hholds⟩)
      · refine .inr (.inr ⟨call, ?_, hholds⟩)
        rw [hcalls]
        exact mem_set_of_ne hkj hj

lemma SupervisorInv.proceed {k : Nat} {ok : Bool} (hstep : s.proceed k ok = some s') :
    SupervisorInv s' := by
  -- calls that kill or wait change processes only, and no process is new
  have hprocess {call call' : SupervisorCall} {processes : List ProcessStatus}
      (hcall : s.calls[k]? = some call) (hlater : Later s.processes processes)
      (hlength : processes.length = s.processes.length)
      (hrestarts : ∀ i, call'.Restarts i → call.Restarts i)
      (hholds : ∀ c, call.Holds c → Reaped processes c ∨ call'.Holds c) :
      SupervisorInv { s with processes := processes, calls := s.calls.set k call' } :=
    hi.goOn hlater rfl (fun _ => rfl) rfl hcall rfl hrestarts hholds
      fun c hle hlt => absurd hlt (Nat.not_lt.2 (hlength.symm ▸ hle))
  have hkills (child : Nat) :
      Later s.processes (if ok then killProcess s.processes child else s.processes) ∧
        (if ok then killProcess s.processes child else s.processes).length =
          s.processes.length := by
    cases ok with
    | true => exact Later.kill s.processes child
    | false => exact ⟨Later.refl _, rfl⟩
  unfold SupervisorState.proceed at hstep
  split at hstep
  · cases hstep
  next call hcall =>
    split at hstep
    next worker =>
      split at hstep
      · cases hstep
        refine hi.goOn (Later.append _ _) rfl (fun _ => rfl) rfl hcall rfl (fun _ => id)
          nofun fun c hle hlt => ?_
        rw [length_append] at hlt
        exact (Nat.le_antisymm (Nat.le_of_lt_succ hlt) hle).symm
      · cases hstep
        exact hprocess hcall (Later.refl _) rfl nofun nofun
    next worker child =>
      -- `destroy` may have emptied the slot while the child was spawned
      split at hstep
      next w hw =>
        cases hstep
        exact hi.store hcall hw
      next =>
        cases hstep
        exact hprocess hcall (Later.refl _) rfl nofun fun _ => .inr
    next child =>
      cases hstep
      exact hprocess hcall (hkills child).1 (hkills child).2 nofun fun _ => .inr
    next child result =>
      split at hstep
      · cases hstep
      next processes _ hwait =>
        cases hstep
        obtain ⟨hlater, hlength, hreaped⟩ := Later.wait hwait
        refine hprocess hcall hlater hlength nofun ?_
        rintro c rfl
        exact .inl hreaped
    next child =>
      split at hstep
      · cases hstep
      next processes _ hwait =>
        cases hstep
        obtain ⟨hlater, hlength, -⟩ := Later.wait hwait
        exact hprocess hcall hlater hlength nofun nofun
    next child =>
      split at hstep
      · cases hstep
        obtain ⟨hlater, hlength⟩ := Later.kill s.processes child
        exact hprocess hcall hlater hlength nofun nofun
      · cases hstep
        exact hprocess hcall (Later.refl _) rfl nofun nofun
    next =>
      cases hstep
      exact hprocess hcall (Later.refl _) rfl nofun nofun
    next child rest =>
      cases hstep
      refine hprocess hcall (hkills child).1 (hkills child).2 nofun ?_
      intro c hc
      exact .inr ((mem_cons.1 hc).imp_left Eq.symm)
    next child rest =>
      split at hstep
      · cases hstep
      next processes _ hwait =>
        cases hstep
        obtain ⟨hlater, hlength, hreaped⟩ := Later.wait hwait
        refine hprocess hcall hlater hlength nofun ?_
        rintro c (rfl | hc)
        · exact .inl hreaped
        · exact .inr hc
    next => cases hstep

end

lemma SupervisorInv.step {move : SupervisorMove} (hpolls : PollsApart s move)
    (hi : SupervisorInv s) (hstep : s.step move = some s') : SupervisorInv s' := by
  cases move with
  | spawn maxRestarts ok =>
    cases hstep
    exact hi.spawn
  | poll worker ok =>
    cases hstep
    exact hi.poll hpolls
  | wait worker =>
    cases hstep
    unfold SupervisorState.wait
    split
    · exact hi.enterQuiet fun _ => id
    · exact hi.enterQuiet fun _ => id
  | kill worker =>
    cases hstep
    unfold SupervisorState.kill
    split
    · exact hi.enterQuiet fun _ => id
    · exact hi.enterQuiet fun _ => id
  | destroy =>
    cases hstep
    exact hi.destroy
  | proceed k ok => exact hi.proceed hstep
  | exit child code =>
    simp only [SupervisorState.step] at hstep
    split at hstep
    next hrunning =>
      cases hstep
      have hlater : Later s.processes (s.processes.set child (.exited code)) := by
        refine Later.set ?_
        rintro ⟨code', hcode'⟩
        rw [hrunning] at hcode'
        cases hcode'
      refine ⟨hi.slots, hi.fresh, hi.apart, ?_, ?_⟩
      · intro call hmem i hr
        exact ready_mono (hi.ready call hmem i hr) hlater rfl fun _ => rfl
      · intro c hc
        rw [length_set] at hc
        exact (hi.accounted c hc).imp_left (hlater.reaped c)
    next => cases hstep

lemma SupervisorInv.create : SupervisorInv .create where
  slots i w hw := by
    have := (slot_eq_some.1 hw).2
    cases this
  fresh _ i _ hmem := by cases hmem
  apart k k' call call' i h := by cases h
  ready call hmem := by cases hmem
  accounted c hc := by cases hc

end Inv

/-- As long as no two calls of `poll` restart one slot at the same time, the replacements stored in
a slot stay within its budget, and every child belongs to a live slot, has been reaped, or is in the
hands of a call that stores or reaps it. -/
theorem supervisor_keeps_children {moves : List SupervisorMove} {s : SupervisorState}
    (hpolls : Along SupervisorState.step PollsApart moves .create)
    (hrun : runSchedule SupervisorState.step moves .create = some s) :
    (∀ i w, s.slot i = some w → s.stored.count i ≤ w.maxRestarts) ∧ ∀ c < s.processes.length,
        s.Owns c ∨ Reaped s.processes c ∨ ∃ call ∈ s.calls, call.Holds c := by
  have hi : SupervisorInv s :=
    hpolls.invariant (fun _ _ _ hcond hi => hi.step hcond) SupervisorInv.create hrun
  refine ⟨fun i w hw => ?_, fun c hc => ?_⟩
  · obtain ⟨hcount, hle⟩ := hi.slots i w hw
    exact Nat.le_trans (Nat.le_of_eq hcount) hle
  rcases hi.accounted c hc with hreaped | howns | hheld
  · exact .inr (.inl hreaped)
  · exact .inl howns
  · exact .inr (.inr hheld)

/-- A worker with two restarts exits and is replaced, and the replacement exits too: one restart is
stored, and the child of the second is in the hands of `poll`. -/
theorem supervisor_keeps_children_restarted : [0].count 0 ≤ 2 ∧
    (SupervisorState.Owns ⟨[some ⟨1, 1, 2⟩], false, [.reaped (some 1), .reaped none, .running],
        [.returned 0, .returned 2, .store 0 2], [0]⟩ 2 ∨
      Reaped [.reaped (some 1), .reaped none, .running] 2 ∨
      ∃ call ∈ [SupervisorCall.returned 0, .returned 2, .store 0 2], call.Holds 2) := by
  have hquiet {call : SupervisorCall} {worker : Nat} (results : List Int)
      (hcall : call ∈ results.map SupervisorCall.returned) : ¬ call.Restarts worker := by
    obtain ⟨result, -, rfl⟩ := mem_map.1 hcall
    exact id
  have hpolls : Along SupervisorState.step PollsApart [.spawn 2 true, .exit 0 (some 1),
      .poll 0 true, .proceed 1 true, .proceed 1 true, .exit 1 none, .poll 0 true, .proceed 2 true]
      .create := by
    refine ⟨nofun, fun s₁ h₁ => ?_⟩
    cases h₁
    refine ⟨nofun, fun s₂ h₂ => ?_⟩
    cases h₂
    refine ⟨fun _ _ _ _ hcall => hquiet [0] hcall, fun s₃ h₃ => ?_⟩
    cases h₃
    refine ⟨nofun, fun s₄ h₄ => ?_⟩
    cases h₄
    refine ⟨nofun, fun s₅ h₅ => ?_⟩
    cases h₅
    refine ⟨nofun, fun s₆ h₆ => ?_⟩
    cases h₆
    refine ⟨fun _ _ _ _ hcall => hquiet [0, 2] hcall, fun s₇ h₇ => ?_⟩
    cases h₇
    exact ⟨nofun, fun _ _ => trivial⟩
  obtain ⟨hbudget, hchildren⟩ := supervisor_keeps_children hpolls rfl
  exact ⟨hbudget 0 ⟨1, 1, 2⟩ rfl, hchildren 2 (by decide)⟩

/-- While `poll` restarts a worker the replacement has no slot. Two calls of `poll` at the same
time restart the worker of a slot with one restart twice, and lose the first replacement. -/
theorem supervisor_restart_overlap :
    (∃ s, runSchedule SupervisorState.step [.spawn 1 true, .exit 0 none, .poll 0 true,
        .proceed 1 true] .create = some s ∧ 1 < s.processes.length ∧ ¬ s.Owns 1 ∧
      ¬ Reaped s.processes 1) ∧
    ∃ s, runSchedule SupervisorState.step [.spawn 1 true, .exit 0 none, .poll 0 true,
        .poll 0 true, .proceed 1 true, .proceed 2 true, .proceed 1 true, .proceed 2 true]
        .create = some s ∧
      s.slot 0 = some ⟨2, 2, 1⟩ ∧ s.stored.count 0 = 2 ∧ 1 < s.processes.length ∧ ¬ s.Owns 1 ∧
      ¬ Reaped s.processes 1 ∧
      ∀ call ∈ s.calls, ∃ result, call = .returned result := by
  -- the only slot holds another child
  have howns {w : SupervisedWorker} {processes : List ProcessStatus} {calls : List SupervisorCall}
      {stored : List Nat} (hne : w.child ≠ 1) :
      ¬ SupervisorState.Owns ⟨[some w], false, processes, calls, stored⟩ 1 := by
    rintro ⟨i, w', hw', hchild⟩
    have hget := (slot_eq_some.1 hw').2
    have hmem := mem_singleton.1 (mem_of_getElem? hget)
    exact hne (some.inj hmem ▸ hchild)
  refine ⟨⟨⟨[some ⟨0, 0, 1⟩], false, [.reaped none, .running], [.returned 0, .store 0 1], []⟩,
    rfl, by decide, howns (by decide), ?_⟩, ⟨⟨[some ⟨2, 2, 1⟩], false,
    [.reaped none, .running, .running], [.returned 0, .returned 2, .returned 2],
    [0, 0]⟩, rfl, rfl, rfl, by decide, howns (by decide), ?_, ?_⟩⟩
  · rintro ⟨code, hcode⟩
    cases hcode
  · rintro ⟨code, hcode⟩
    cases hcode
  · intro call hcall
    simp only [mem_cons, not_mem_nil, or_false] at hcall
    rcases hcall with rfl | rfl | rfl
    · exact ⟨0, rfl⟩
    · exact ⟨2, rfl⟩
    · exact ⟨2, rfl⟩

end Arandu.Runtime
