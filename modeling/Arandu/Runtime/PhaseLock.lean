import Arandu.Library.CountMap

/-!
# The phase-fair reader/writer lock

`phase_lock.rs`: locks are entries of a table keyed by address. An entry counts its readers per
owner, knows the owner of the writer, and queues the owners that wait. `acquire` and `release`
change the entry inside one critical section each; an owner that is queued sleeps until a release
admits it.

The calls report what they do as events (`PhaseEvent`). What the lock promises is stated over the
events of one address alone (`PhaseFair`), and holds along every interleaving.
-/

namespace Arandu.Runtime

open Arandu.Library Function

/-! ## Entries -/

abbrev OwnerId := Nat

structure PhaseState where
  readers : Nat
  writer : Bool
  readerOwners : CountMap OwnerId
  writerOwner : Option OwnerId
  waitingReaders : List OwnerId
  waitingWriters : List OwnerId

def PhaseState.default : PhaseState := ⟨0, false, ∅, none, [], []⟩

inductive PhaseEvent where
  /-- the owner is admitted by its own call -/
  | entered (owner : OwnerId) (write : Bool)
  /-- the owner is queued -/
  | queued (owner : OwnerId) (write : Bool)
  /-- a queued owner is admitted -/
  | signaled (owner : OwnerId) (write : Bool)
  | released (owner : OwnerId) (write : Bool)
  /-- the entry is removed from the table -/
  | dropped
deriving DecidableEq, Repr

namespace PhaseState

variable (s : PhaseState) (owner : OwnerId)

/-- A counter that would overflow aborts the process. -/
def addReader : Option PhaseState :=
  if s.readers + 1 < 2 ^ 64 ∧ s.readerOwners.count owner + 1 < 2 ^ 64 then
    some { s with
      readers := s.readers + 1
      readerOwners := s.readerOwners.insert owner (s.readerOwners.count owner + 1) }
  else none

def removeReader : Option PhaseState :=
  match s.readerOwners.lookup owner with
  | none => none
  | some count =>
    if s.readers = 0 ∨ count = 0 then none
    else
      some { s with
        readers := s.readers - 1
        readerOwners :=
          if count = 1 then s.readerOwners.erase owner
          else s.readerOwners.insert owner (count - 1) }

def wouldSelfDeadlock (write : Bool) : Bool :=
  s.writerOwner == some owner || (write && (s.readerOwners.lookup owner).isSome) ||
    (!write && (s.readerOwners.lookup owner).isSome && !s.waitingWriters.isEmpty)

def admitWriter : PhaseState × List PhaseEvent :=
  match s.waitingWriters with
  | [] => (s, [])
  | owner :: rest =>
    ({ s with writer := true, writerOwner := some owner, waitingWriters := rest },
      [.signaled owner true])

/-- The loop of `release` that admits the queued readers one by one. -/
def admitReaders : List OwnerId → PhaseState → Option (PhaseState × List PhaseEvent)
  | [], s => some (s, [])
  | owner :: rest, s =>
    match { s with waitingReaders := rest }.addReader owner with
    | none => none
    | some s =>
      match admitReaders rest s with
      | none => none
      | some (s, events) => some (s, .signaled owner false :: events)

/-- The lock is free for the request. -/
def available (write : Bool) : Bool :=
  !s.writer && s.waitingWriters.isEmpty && (!write || s.readers == 0)

end PhaseState

/-! ## Calls -/

/-- The entries of the table by address. -/
abbrev PhaseTable := Nat → Option PhaseState

/-- How a call ends: with a table and a result, or with the end of the process. -/
inductive PhaseResult where
  | done (table : PhaseTable) (result : Bool) (events : List PhaseEvent)
  | aborted

variable (t : PhaseTable)

/-- The result is false when a call that must not block gives up. A call that queues
its owner returns true once the owner has been signaled. -/
def PhaseTable.acquire (key : Nat) (owner : OwnerId) (write blocking : Bool) : PhaseResult :=
  if key = 0 then .aborted
  else
    let state := (t key).getD .default
    if blocking && state.wouldSelfDeadlock owner write then .aborted
    else if state.available write then
      if write then
        .done (update t key (some { state with writer := true, writerOwner := some owner }))
          true [.entered owner true]
      else
        match state.addReader owner with
        | some state => .done (update t key (some state)) true [.entered owner false]
        | none => .aborted
    else if !blocking then .done (update t key (some state)) false []
    else if write then
      .done (update t key
        (some { state with waitingWriters := state.waitingWriters ++ [owner] })) true
        [.queued owner true]
    else
      .done (update t key
        (some { state with waitingReaders := state.waitingReaders ++ [owner] })) true
        [.queued owner false]

/-- The end of `release`: an entry without holders leaves the table. -/
def PhaseTable.settle (key : Nat) (state : PhaseState) (events : List PhaseEvent) : PhaseResult :=
  if !state.writer && state.readers == 0 then
    if state.writerOwner.isSome || !state.readerOwners.entries.isEmpty then .aborted
    else .done (update t key none) true (events ++ [.dropped])
  else .done (update t key (some state)) true events

/-- The callers abort the process when it refuses. -/
def PhaseTable.release (key : Nat) (owner : OwnerId) (write : Bool) : PhaseResult :=
  if key = 0 then .aborted
  else
    match t key with
    | none => .aborted
    | some state =>
      if write then
        if !state.writer || state.writerOwner != some owner || state.readers != 0 then .aborted
        else
          let state := { state with writer := false, writerOwner := none }
          match PhaseState.admitReaders state.waitingReaders state with
          | none => .aborted
          | some (state, events) =>
            let (state, admitted) := if state.readers = 0 then state.admitWriter else (state, [])
            t.settle key state (.released owner true :: events ++ admitted)
      else if state.writer then .aborted
      else
        match state.removeReader owner with
        | none => .aborted
        | some state =>
          let (state, admitted) := if state.readers = 0 then state.admitWriter else (state, [])
          t.settle key state (.released owner false :: admitted)

/-! ## Interleavings -/

/-- The owner is asleep in a queue. -/
def PhaseTable.Asleep (owner : OwnerId) : Prop :=
  ∃ key state, t key = some state ∧ (owner ∈ state.waitingReaders ∨ owner ∈ state.waitingWriters)

structure PhaseSystem where
  table : PhaseTable
  history : Nat → List PhaseEvent

def PhaseSystem.start : PhaseSystem := ⟨fun _ => none, fun _ => []⟩

/-- Some owner that is awake passes one critical section. -/
inductive PhaseStep : PhaseSystem → PhaseSystem → Prop
  | acquire {sys : PhaseSystem} {key : Nat} {owner : OwnerId} {write blocking result : Bool}
      {table : PhaseTable} {events : List PhaseEvent} (hawake : ¬ sys.table.Asleep owner)
      (h : sys.table.acquire key owner write blocking = .done table result events) :
      PhaseStep sys ⟨table, update sys.history key (sys.history key ++ events)⟩
  | release {sys : PhaseSystem} {key : Nat} {owner : OwnerId} {write result : Bool}
      {table : PhaseTable} {events : List PhaseEvent} (hawake : ¬ sys.table.Asleep owner)
      (h : sys.table.release key owner write = .done table result events) :
      PhaseStep sys ⟨table, update sys.history key (sys.history key ++ events)⟩

/-! ## What the lock promises -/

/-- How often the owner holds the lock after the events. -/
def holds (h : List PhaseEvent) (owner : OwnerId) (write : Bool) : Nat :=
  h.count (.entered owner write) + h.count (.signaled owner write) - h.count (.released owner write)

/-- How often the owner is queued after the events. -/
def waits (h : List PhaseEvent) (owner : OwnerId) (write : Bool) : Nat :=
  h.count (.queued owner write) - h.count (.signaled owner write)

def admittedWriters (h : List PhaseEvent) : List OwnerId :=
  h.filterMap admitted
where
  admitted : PhaseEvent → Option OwnerId
    | .entered owner true | .signaled owner true => some owner
    | _ => none

/-- The writers that have arrived, in order. -/
def arrivedWriters (h : List PhaseEvent) : List OwnerId :=
  h.filterMap arrived
where
  arrived : PhaseEvent → Option OwnerId
    | .entered owner true | .queued owner true => some owner
    | _ => none

/-- What the events at one address show between two critical sections. -/
structure PhaseFair (h : List PhaseEvent) : Prop where
  /-- a writer is admitted when nobody holds the lock -/
  exclusive : ∀ h₁ e h₂ owner, h = h₁ ++ e :: h₂ →
    e = .entered owner true ∨ e = .signaled owner true → ∀ o w, holds h₁ o w = 0
  /-- a reader holds the lock only while no writer does -/
  shared : ∀ o o', 0 < holds h o false → holds h o' true = 0
  /-- an owner that waits does not hold the lock -/
  patient : ∀ o w w', 0 < waits h o w → holds h o w' = 0
  /-- readers wait for writers only -/
  readers : ∀ o, 0 < waits h o false → ∃ o', 0 < holds h o' true ∨ 0 < waits h o' true
  /-- writers are admitted in the order of their arrival -/
  order : admittedWriters h <+: arrivedWriters h
  /-- at most one writer overtakes a queued reader -/
  phase : ∀ h₁ o h₂, h = h₁ ++ .queued o false :: h₂ → .signaled o false ∉ h₂ →
    (admittedWriters h₂).length ≤ 1
  /-- the entry is dropped when nobody holds the lock or waits for it -/
  dropped : ∀ h₁ h₂, h = h₁ ++ .dropped :: h₂ → ∀ o w, holds h₁ o w = 0 ∧ waits h₁ o w = 0

end Arandu.Runtime
