import Mathlib.Data.List.Nodup
import Mathlib.Data.List.Perm.Basic
import Arandu.Library.Schedule

/-!
# Native threads

`native_thread.rs`: a task owns the buffer of its context and the buffer of its result. `spawn`
gives it to a new thread and enters the join handle in a registry after the thread has started;
`join` and `drop` take the join handle out of its row, wait for the thread, settle the result and
remove the row. `join_module_threads` does the same for all threads with a callback in a module.

The critical sections of the registry, the calls of the entry and of the destructor of a result, and
the end of a thread are separate steps. Calls can be made from outside, by a thread while its entry
runs, and by the destructor of a result. A thread may have several calls at once here, which allows
more interleavings than the source.
-/

namespace Arandu.Runtime

open Arandu.Library

/-! ## Buffers -/

inductive BufferKind where
  | context
  | result
deriving DecidableEq, Repr

/-- What happens to the buffers of a task. -/
inductive BufferEvent where
  /-- the entry has taken the context -/
  | consumed
  /-- the entry has written the result -/
  | initialized
  | destroyed (kind : BufferKind)
  | freed (kind : BufferKind)
  /-- a join hands the result to its caller -/
  | returned
deriving DecidableEq, Repr

/-- `Buffer::drop`. -/
def dropBuffer (kind : BufferKind) (initialized : Bool) : List BufferEvent :=
  (if initialized then [.destroyed kind] else []) ++ [.freed kind]

def dropTask : List BufferEvent := dropBuffer .context true ++ dropBuffer .result false

/-- The end of `Task::execute`, after the entry has returned. -/
def executeEnd (status : Int) : List BufferEvent :=
  if status ≠ 0 then .consumed :: (dropBuffer .context false ++ dropBuffer .result false)
  else .consumed :: .initialized :: dropBuffer .context false

/-! ## Threads, rows and calls -/

/-- How far a task is; `ok` says that it has a result. -/
inductive ThreadStage where
  /-- `spawn` is about to take an id -/
  | accepted
  /-- `spawn` is about to start the thread -/
  | numbered
  /-- no thread was started -/
  | refused
  /-- the entry runs -/
  | running
  | returned (ok : Bool)
  | published (ok : Bool)
  /-- the thread has ended and its outcome is behind the join handle -/
  | exited (ok : Bool)
deriving DecidableEq, Repr

/-- Where the result of a task is. -/
inductive ResultFate where
  | held
  | returned
  | destroying
  | destroyed
deriving DecidableEq, Repr

/-- Who makes a call: a native thread or another one, in its own code or in the destructor of a
result. -/
structure Caller where
  thread : Option Nat
  within : Option Nat
deriving DecidableEq, Repr

structure NativeThread where
  handle : Nat
  callbacks : List Nat
  caller : Caller
  stage : ThreadStage
  /-- the row was inserted, with which `spawn` returns -/
  inserted : Bool
  fate : ResultFate
  events : List BufferEvent
deriving DecidableEq, Repr

/-- A row of the registry; `finished` is the thread whose flag it shares. -/
structure Running where
  callbacks : List Nat
  thread : Option Nat
  finished : Nat
deriving DecidableEq, Repr

inductive CallKind where
  | join (handle : Nat)
  | drop (handle : Nat)
  | joinModule (module : Nat)
deriving DecidableEq, Repr

/-- How far the first thread of the batch is. -/
inductive ClaimPoint where
  /-- about to join it -/
  | claimed
  /-- the destructor of its result runs -/
  | destroying
  /-- about to remove the row -/
  | finishing
deriving DecidableEq, Repr

inductive CallPoint where
  | starting
  | working (point : ClaimPoint)
  | returned
deriving DecidableEq, Repr

/-- What `join` returns. -/
inductive JoinValue where
  | null
  | panicked
  | pointer (thread : Nat)
deriving DecidableEq, Repr

/-- A call of `join`, `drop` or `join_module_threads` with the join handles it has taken. -/
structure NativeCall where
  caller : Caller
  kind : CallKind
  point : CallPoint
  batch : List (Nat × Nat)
  value : JoinValue
deriving DecidableEq, Repr

structure NativeState where
  nextId : Nat
  threads : List NativeThread
  rows : Nat → Option Running
  calls : List NativeCall

def NativeState.new : NativeState := ⟨1, [], fun _ => none, []⟩

def ThreadStage.isFinished : ThreadStage → Bool
  | .published _ | .exited _ => true
  | _ => false

def ThreadStage.isAlive : ThreadStage → Bool
  | .running | .returned _ | .published _ => true
  | _ => false

/-- A thread was started. -/
def ThreadStage.isStarted : ThreadStage → Bool
  | .accepted | .numbered | .refused => false
  | _ => true

/-- The call of `spawn` has not returned. -/
def NativeThread.spawning (th : NativeThread) : Bool :=
  decide (th.stage ≠ .refused) && !th.inserted

namespace NativeState

variable (s : NativeState)

/-- A call that has not returned satisfies the condition on its caller. -/
def busy (cond : Caller → Bool) : Bool :=
  (s.calls.any fun c => cond c.caller && decide (c.point ≠ .returned)) ||
    s.threads.any fun th => cond th.caller && th.spawning

def destroys (c : NativeCall) (q : Nat) : Bool :=
  decide (c.point = .working .destroying) && decide (c.batch.head?.map Prod.snd = some q)

def mayCall (caller : Caller) : Bool :=
  (match caller.thread with
    | none => true
    | some p =>
      match s.threads[p]? with
      | none => false
      | some th => decide (th.stage = .running)) &&
    match caller.within with
    | none => true
    | some q => s.calls.any fun c => destroys c q && decide (c.caller.thread = caller.thread)

def setThread (t : Nat) (th : NativeThread) : NativeState :=
  { s with threads := s.threads.set t th }

/-- The flag that a row shares with its thread. -/
def finished (row : Running) : Bool :=
  match s.threads[row.finished]? with
  | none => false
  | some th => th.stage.isFinished

def isCurrentThread (caller : Caller) (handle : Nat) : Bool :=
  match s.rows handle with
  | none => false
  | some row => decide (row.thread ≠ none ∧ row.thread = caller.thread)

/-! ## Steps of a task -/

/-- The task is dropped and `spawn` returns zero. -/
def refuse (t : Nat) (th : NativeThread) : NativeState :=
  s.setThread t { th with stage := .refused, events := th.events ++ dropTask }

/-- A step of `spawn`; `started` is the answer of the operating system. -/
def proceedSpawn (limit t : Nat) (started : Bool) : Option NativeState :=
  match s.threads[t]? with
  | none => none
  | some th =>
    match th.stage with
    | .accepted =>
      if s.nextId + 1 < limit then
        some { s.setThread t { th with stage := .numbered, handle := s.nextId } with
          nextId := s.nextId + 1 }
      else some (s.refuse t th)
    | .numbered =>
      if started then some (s.setThread t { th with stage := .running }) else some (s.refuse t th)
    | .refused => none
    | _ =>
      if th.inserted then none
      else
        some { s.setThread t { th with inserted := true } with
          rows := Function.update s.rows th.handle (some ⟨th.callbacks, some t, t⟩) }

/-- A step of the thread; `status` is what its entry returns. -/
def proceedThread (t : Nat) (status : Int) : Option NativeState :=
  match s.threads[t]? with
  | none => none
  | some th =>
    match th.stage with
    | .running =>
      if s.busy fun caller => decide (caller.thread = some t) then none
      else
        some (s.setThread t { th with
          stage := .returned (decide (status = 0)), events := th.events ++ executeEnd status })
    | .returned ok => some (s.setThread t { th with stage := .published ok })
    | .published ok => some (s.setThread t { th with stage := .exited ok })
    | _ => none

/-! ## Steps of a call -/

variable (contains : Nat → Nat → Bool)

def inModule (module : Nat) (callbacks : List Nat) : Bool :=
  callbacks.any (contains module)

def moduleIds (module : Nat) : List Nat :=
  (List.range s.nextId).filter fun id =>
    match s.rows id with
    | none => false
    | some row => inModule contains module row.callbacks

def blocks (id : Nat) : Bool :=
  match s.rows id with
  | none => false
  | some row => decide (row.thread = none) || !s.finished row

/-- The join handle in a row. -/
def handleIn (id : Nat) : Option (Nat × Nat) :=
  match s.rows id with
  | none => none
  | some row => row.thread.map (id, ·)

/-- The join handles of the rows are taken. -/
def takeThreads (ids : List Nat) : Nat → Option Running := fun id =>
  if id ∈ ids then (s.rows id).map fun row => { row with thread := none } else s.rows id

/-- The critical section of `claim_thread` or of `join_module_threads` over the given rows. -/
def claim (i : Nat) (c : NativeCall) (ids : List Nat) : NativeState :=
  let batch := ids.filterMap s.handleIn
  { s with
    rows := s.takeThreads ids
    calls := s.calls.set i { c with
      point := if batch = [] then .returned else .working .claimed
      batch := batch } }

/-- The first thread of the batch has ended: its outcome is settled. -/
def settle (i t : Nat) (c : NativeCall) (th : NativeThread) (ok : Bool) : NativeState :=
  if ok then
    match c.kind with
    | .join _ =>
      { s.setThread t { th with fate := .returned, events := th.events ++ [.returned] } with
        calls := s.calls.set i { c with point := .working .finishing, value := .pointer t } }
    | _ =>
      { s.setThread t { th with
          fate := .destroying, events := th.events ++ [.destroyed .result] } with
        calls := s.calls.set i { c with point := .working .destroying } }
  else
    { s with
      calls := s.calls.set i { c with
        point := .working .finishing
        value := match c.kind with
          | .join _ => .panicked
          | _ => c.value } }

/-- The point after the last thread of a batch: `join_module_threads` looks again. -/
def CallKind.next : CallKind → CallPoint
  | .joinModule _ => .starting
  | _ => .returned

/-- A call goes on; `order` is the order in which the registry is traversed. -/
def proceedCall (i : Nat) (order : List Nat) : Option NativeState :=
  match s.calls[i]? with
  | none => none
  | some c =>
    match c.point, c.batch with
    | .starting, _ =>
      match c.kind with
      | .join handle | .drop handle => some (s.claim i c [handle])
      | .joinModule module =>
        if (s.moduleIds contains module).any s.blocks then none
        else if order.isPerm (s.moduleIds contains module) then some (s.claim i c order)
        else none
    | .working .claimed, (_, t) :: _ =>
      match s.threads[t]? with
      | none => none
      | some th =>
        match th.stage with
        | .exited ok => some (s.settle i t c th ok)
        | _ => none
    | .working .destroying, (_, t) :: _ =>
      if s.busy fun caller => decide (caller.within = some t) then none
      else
        match s.threads[t]? with
        | none => none
        | some th =>
          some { s.setThread t { th with
              fate := .destroyed, events := th.events ++ [.freed .result] } with
            calls := s.calls.set i { c with point := .working .finishing } }
    | .working .finishing, (handle, _) :: rest =>
      some { s with
        rows := Function.update s.rows handle none
        calls := s.calls.set i { c with
          point := if rest = [] then CallKind.next c.kind else .working .claimed
          batch := rest } }
    | _, _ => none

end NativeState

inductive NativeMove where
  /-- `ar_rt_native_thread_spawn` with the addresses of its callbacks -/
  | spawn (caller : Caller) (entry dropContext dropResult : Nat) (valid : Bool)
  | proceedSpawn (t : Nat) (started : Bool)
  | proceedThread (t : Nat) (status : Int)
  /-- `join`, `drop` or `join_module_threads` -/
  | call (caller : Caller) (kind : CallKind)
  | proceedCall (i : Nat) (order : List Nat)
  /-- `is_finished`, which changes nothing -/
  | isFinished (handle : Nat)
deriving DecidableEq, Repr

/-- One step; `limit` is the number of values of a `usize`, and `contains module address` says that
the address is in the module. -/
def NativeState.step (limit : Nat) (contains : Nat → Nat → Bool) (s : NativeState) :
    NativeMove → Option NativeState
  | .spawn caller entry dropContext dropResult valid =>
    if s.mayCall caller then
      if valid then
        some { s with
          threads := s.threads ++
            [⟨0, [entry, dropContext, dropResult], caller, .accepted, false, .held, []⟩] }
      else some s
    else none
  | .proceedSpawn t started => s.proceedSpawn limit t started
  | .proceedThread t status => s.proceedThread t status
  | .call caller kind =>
    if s.mayCall caller then
      match kind with
      | .drop handle =>
        if s.isCurrentThread caller handle then some s
        else some { s with calls := s.calls ++ [⟨caller, kind, .starting, [], .null⟩] }
      | _ => some { s with calls := s.calls ++ [⟨caller, kind, .starting, [], .null⟩] }
    else none
  | .proceedCall i order => s.proceedCall contains i order
  | .isFinished _ => some s

end Arandu.Runtime
