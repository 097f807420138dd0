import Mathlib.Data.List.Basic
import Arandu.Library.Schedule

/-!
# The worker pool

`worker_scheduler/pool.rs`: workers take tasks from a bounded queue. A task may submit further
tasks and wait for their results. The module promises that work submitted from inside a worker
executes inline, so that a parent can wait for its child without a cycle of waiting workers.
`submit` does so; `try_submit` queues the child whenever the queue has room.

The thunk of a task is the sequence of pool calls that it makes. A worker is the stack of the
tasks that it runs, the innermost first.
-/

namespace Arandu.Runtime

open Arandu.Library List

variable {stack : List PoolFrame} {allocated : Bool}

/-! ## Tasks -/

/-- The calls that hand a task to the pool. -/
inductive PoolEntry where
  | trySubmit
  | submit
deriving DecidableEq, Repr

/-- What a thunk does with the pool: the token of a child is its cancel token, and children are
waited for by their number in the order of submission. -/
inductive PoolThunk where
  | finish
  | submit (entry : PoolEntry) (token : Option Nat) (child rest : PoolThunk)
  | wait (child : Nat) (rest : PoolThunk)
deriving DecidableEq, Repr

structure PoolTask where
  token : Option Nat
  thunk : PoolThunk
deriving DecidableEq, Repr

/-- A running task: what is left of its thunk, and the results that it may wait for. A child that
was refused has no result. -/
structure PoolFrame where
  id : Nat
  children : List (Option Nat)
  rest : PoolThunk
deriving DecidableEq, Repr

/-- Tasks are numbered as they are submitted; `delivered` lists those with an outcome. -/
structure PoolState where
  capacity : Nat
  /-- the owner of the pool has dropped it -/
  closed : Bool
  /-- the cancel tokens that are set -/
  canceled : List Nat
  nextId : Nat
  queue : List (Nat × PoolTask)
  workers : List (List PoolFrame)
  delivered : List Nat
deriving DecidableEq, Repr

def PoolState.new (workerCount admissionBound : Nat) : Option PoolState :=
  if workerCount = 0 then none
  else if admissionBound = 0 then none
  else some ⟨admissionBound, false, [], 0, [], List.replicate workerCount [], []⟩

namespace PoolState

variable (s : PoolState)

/-- The token of the task is set. -/
def isCanceled (task : PoolTask) : Bool :=
  match task.token with
  | none => false
  | some token => s.canceled.contains token

/-- `WorkerTask::execute` on the given worker: a canceled task, and one whose result cannot be
allocated, have their outcome at once. -/
def execute (k id : Nat) (task : PoolTask) (stack : List PoolFrame) (allocated : Bool) :
    PoolState :=
  if s.isCanceled task || !allocated then
    { s with workers := s.workers.set k stack, delivered := id :: s.delivered }
  else { s with workers := s.workers.set k (⟨id, [], task.thunk⟩ :: stack) }

def submitNested (k : Nat) (frame : PoolFrame) (stack : List PoolFrame) (entry : PoolEntry)
    (task : PoolTask) (rest : PoolThunk) (allocated : Bool) : PoolState :=
  let id := s.nextId
  let s := { s with nextId := s.nextId + 1 }
  let parent := { frame with children := frame.children ++ [some id], rest := rest }
  if s.isCanceled task then s.execute k id task (parent :: stack) allocated
  else
    match entry with
    | .submit => s.execute k id task (parent :: stack) allocated
    | .trySubmit =>
      if s.closed then
        let parent := { frame with children := frame.children ++ [none], rest := rest }
        { s with workers := s.workers.set k (parent :: stack) }
      else if s.queue.length < s.capacity then
        { s with workers := s.workers.set k (parent :: stack), queue := s.queue ++ [(id, task)] }
      else s.execute k id task (parent :: stack) allocated

/-- The next step of a worker: an idle one takes a task, a busy one goes on with its innermost
task. -/
def stepWorker (k : Nat) (allocated : Bool) : Option PoolState :=
  match s.workers[k]? with
  | none => none
  | some [] =>
    match s.queue with
    | [] => none
    | (id, task) :: queue => some ({ s with queue := queue }.execute k id task [] allocated)
  | some (frame :: stack) =>
    match frame.rest with
    | .finish =>
      some { s with workers := s.workers.set k stack, delivered := frame.id :: s.delivered }
    | .submit entry token child rest =>
      some (s.submitNested k frame stack entry ⟨token, child⟩ rest allocated)
    | .wait child rest =>
      match frame.children[child]? with
      | some (some id) =>
        if s.delivered.contains id then
          some { s with workers := s.workers.set k ({ frame with rest := rest } :: stack) }
        else none
      | _ => some { s with workers := s.workers.set k ({ frame with rest := rest } :: stack) }

end PoolState

inductive PoolMove where
  /-- a worker; the flag says whether a result can be allocated -/
  | worker (k : Nat) (allocated : Bool)
  /-- a thread outside the pool hands in a task -/
  | outside (task : PoolTask)
  /-- a cancel token is set -/
  | cancel (token : Nat)
  /-- the pool is dropped -/
  | drop
deriving DecidableEq, Repr

variable (s : PoolState)

/-- One critical section of the pool. A task from outside waits for room, or is refused. -/
def PoolState.step : PoolMove → Option PoolState
  | .worker k allocated => s.stepWorker k allocated
  | .outside task =>
    let s' := { s with nextId := s.nextId + 1 }
    if s.isCanceled task then some { s' with delivered := s.nextId :: s.delivered }
    else if s.closed then some s'
    else if s.queue.length < s.capacity then some { s' with queue := s.queue ++ [(s.nextId, task)] }
    else none
  | .cancel token => some { s with canceled := token :: s.canceled }
  | .drop => some { s with closed := true }

/-! ## Waiting workers -/

/-- The worker waits for a task that nobody has taken from the queue. -/
def PoolState.Stranded (stack : List PoolFrame) : Prop :=
  ∃ frame below child rest id, stack = frame :: below ∧ frame.rest = .wait child rest ∧
    frame.children[child]? = some (some id) ∧ id ∈ s.queue.map Prod.fst

def PoolState.Deadlocked : Prop := ∀ stack ∈ s.workers, s.Stranded stack

/-- A submission by a worker in this step executes inline: it has an outcome, or runs on top of the
task that submitted it, or was refused. -/
def SubmitsInline (move : PoolMove) : Prop :=
  ∀ k allocated frame stack entry token child rest s', move = .worker k allocated →
    s.workers[k]? = some (frame :: stack) → frame.rest = .submit entry token child rest →
    s.step move = some s' → s.nextId ∈ s'.delivered ∨
      (∃ parent, s'.workers[k]? = some (⟨s.nextId, [], child⟩ :: parent :: stack)) ∨
      ∃ parent, s'.workers[k]? = some (parent :: stack) ∧ parent.children = frame.children ++ [none]

/-- A worker that calls `try_submit` finds the queue full, the pool dropped or the task canceled. -/
def FindsNoRoom (move : PoolMove) : Prop :=
  ∀ k allocated frame stack token child rest, move = .worker k allocated →
    s.workers[k]? = some (frame :: stack) → frame.rest = .submit .trySubmit token child rest →
    s.isCanceled ⟨token, child⟩ = true ∨ s.closed = true ∨ s.capacity ≤ s.queue.length

/-! ## Steps of a worker -/

section Step

variable {s s' : PoolState}

open PoolState

lemma PoolState.execute_cases (s : PoolState) (k id : Nat) (task : PoolTask)
    (stack : List PoolFrame) (allocated : Bool) : s.execute k id task stack allocated =
        { s with workers := s.workers.set k stack, delivered := id :: s.delivered } ∨
      s.execute k id task stack allocated =
        { s with workers := s.workers.set k (⟨id, [], task.thunk⟩ :: stack) } := by
  unfold execute
  split
  · exact .inl rfl
  · exact .inr rfl

/-- A nested submission is executed inline, refused, or queued; the latter only by `try_submit`
with room in the queue. -/
lemma PoolState.submitNested_cases (s : PoolState) (k : Nat) (frame : PoolFrame)
    (stack : List PoolFrame) (entry : PoolEntry) (task : PoolTask) (rest : PoolThunk)
    (allocated : Bool) : s.submitNested k frame stack entry task rest allocated =
        { s with nextId := s.nextId + 1 }.execute k s.nextId task
          ({ frame with children := frame.children ++ [some s.nextId], rest := rest } :: stack)
          allocated ∧
        (entry = .trySubmit → s.isCanceled task = true ∨ s.closed = true ∨
          s.capacity ≤ s.queue.length) ∨
      s.submitNested k frame stack entry task rest allocated =
        { s with
          nextId := s.nextId + 1
          workers := s.workers.set k
            ({ frame with children := frame.children ++ [none], rest := rest } :: stack) } ∧
        s.closed = true ∨
      s.submitNested k frame stack entry task rest allocated =
        { s with
          nextId := s.nextId + 1
          workers := s.workers.set k
            ({ frame with children := frame.children ++ [some s.nextId], rest := rest } :: stack)
          queue := s.queue ++ [(s.nextId, task)] } ∧
        entry = .trySubmit ∧ s.isCanceled task = false ∧ s.closed = false ∧
          s.queue.length < s.capacity := by
  unfold submitNested
  cases hcanceled : s.isCanceled task with
  | true =>
    refine .inl ⟨?_, fun _ => .inl rfl⟩
    rw [if_pos]
    exact hcanceled
  | false =>
    rw [if_neg (by simpa [isCanceled] using hcanceled)]
    cases entry with
    | submit => exact .inl ⟨rfl, by simp⟩
    | trySubmit =>
      cases hclosed : s.closed with
      | true => exact .inr (.inl ⟨rfl, rfl⟩)
      | false =>
        by_cases hroom : s.queue.length < s.capacity
        · refine .inr (.inr ⟨?_, rfl, rfl, rfl, hroom⟩)
          rw [if_neg (by simp), if_pos hroom]
        · refine .inl ⟨?_, fun _ => .inr (.inr (Nat.le_of_not_lt hroom))⟩
          rw [if_neg (by simp), if_neg hroom]

end Step

/-! ## Invariants -/

/-- The numbers of a frame have been given out; if workers help inline, none of its children is in
the queue. -/
structure FrameInv (helped : Prop) (s : PoolState) (frame : PoolFrame) : Prop where
  id : frame.id < s.nextId
  children : ∀ id, some id ∈ frame.children → id < s.nextId ∧ (helped → id ∉ s.queue.map Prod.fst)

/-- Every number in use has been given out; if workers help inline, no task can wait for one in the
queue. -/
structure PoolInv (helped : Prop) (s : PoolState) : Prop where
  nonempty : s.workers ≠ []
  queue : ∀ e ∈ s.queue, e.1 < s.nextId
  delivered : ∀ id ∈ s.delivered, id < s.nextId
  frames : ∀ stack ∈ s.workers, ∀ frame ∈ stack, FrameInv helped s frame

section Inv

variable {helped : Prop} {s s' : PoolState} {k : Nat} {frame : PoolFrame} {move : PoolMove}

lemma FrameInv.mono (hf : FrameInv helped s frame) (hnext : s.nextId ≤ s'.nextId)
    (hqueue : ∀ e ∈ s'.queue, e ∈ s.queue ∨ s.nextId ≤ e.1) : FrameInv helped s' frame where
  id := Nat.lt_of_lt_of_le hf.id hnext
  children id hid := by
    obtain ⟨hlt, hunqueued⟩ := hf.children id hid
    refine ⟨Nat.lt_of_lt_of_le hlt hnext, fun hhelped hmem => ?_⟩
    obtain ⟨e, he, rfl⟩ := mem_map.1 hmem
    rcases hqueue e he with hold | hnew
    · exact hunqueued hhelped (mem_map.2 ⟨e, hold, rfl⟩)
    · omega

lemma PoolInv.set (hi : PoolInv helped s) (hnext : s.nextId ≤ s'.nextId)
    (hqueue : ∀ e ∈ s'.queue, e ∈ s.queue ∨ s.nextId ≤ e.1 ∧ e.1 < s'.nextId)
    (hdelivered : ∀ id ∈ s'.delivered, id ∈ s.delivered ∨ id < s'.nextId)
    (hworkers : s'.workers = s.workers.set k stack)
    (hstack : ∀ frame ∈ stack, FrameInv helped s' frame) : PoolInv helped s' where
  nonempty := by
    rw [hworkers, ne_eq, set_eq_nil_iff]
    exact hi.nonempty
  queue e he := by
    rcases hqueue e he with hold | hnew
    · exact Nat.lt_of_lt_of_le (hi.queue e hold) hnext
    · exact hnew.2
  delivered id hid := by
    rcases hdelivered id hid with hold | hnew
    · exact Nat.lt_of_lt_of_le (hi.delivered id hold) hnext
    · exact hnew
  frames st hst frame hframe := by
    rw [hworkers] at hst
    rcases mem_or_eq_of_mem_set hst with hold | rfl
    · exact (hi.frames st hold frame hframe).mono hnext fun e he => (hqueue e he).imp_right And.left
    · exact hstack frame hframe

lemma PoolInv.execute {s₀ : PoolState} {id : Nat} {task : PoolTask} (hi : PoolInv helped s₀)
    (hworkers : s.workers = s₀.workers) (hdelivered : s.delivered = s₀.delivered)
    (hnext : s₀.nextId ≤ s.nextId) (hqueue : ∀ e ∈ s.queue, e ∈ s₀.queue) (hid : id < s.nextId)
    (hstack : ∀ frame ∈ stack, FrameInv helped s frame) :
    PoolInv helped (s.execute k id task stack allocated) := by
  rcases s.execute_cases k id task stack allocated with h | h
  · rw [h]
    refine hi.set hnext (fun e he => .inl (hqueue e he)) ?_ (by rw [hworkers]) ?_
    · exact forall_mem_cons.2 ⟨.inr hid, fun id' hid' => .inl (hdelivered ▸ hid')⟩
    · intro frame hframe
      exact ⟨(hstack frame hframe).id, (hstack frame hframe).children⟩
  · rw [h]
    refine hi.set hnext (fun e he => .inl (hqueue e he)) ?_ (by rw [hworkers]) ?_
    · intro id' hid'
      exact .inl (hdelivered ▸ hid')
    · refine forall_mem_cons.2 ⟨⟨hid, by simp⟩, fun frame hframe => ?_⟩
      exact ⟨(hstack frame hframe).id, (hstack frame hframe).children⟩

/-- A worker keeps the invariant, if it finds no room for `try_submit` or need not help. -/
lemma PoolInv.stepWorker (hi : PoolInv helped s)
    (hroom : helped → FindsNoRoom s (.worker k allocated))
    (hstep : s.stepWorker k allocated = some s') : PoolInv helped s' := by
  unfold PoolState.stepWorker at hstep
  split at hstep
  · cases hstep
  next hidle =>
    split at hstep
    · cases hstep
    next id task queue hqueue =>
      cases hstep
      refine hi.execute rfl rfl (Nat.le_refl _) ?_ ?_ (by simp)
      · intro e he
        rw [hqueue]
        exact mem_cons_of_mem _ he
      · exact hi.queue (id, task) (by rw [hqueue]; exact mem_cons_self)
  next frame stack hbusy =>
    have hframes := hi.frames _ (mem_of_getElem? hbusy)
    have htop := hframes frame mem_cons_self
    -- the tasks below the innermost one are not touched, and that one goes on
    have hgoesOn (s₁ : PoolState) (parent : PoolFrame) (hnext : s.nextId ≤ s₁.nextId)
        (hqueue : ∀ e ∈ s₁.queue, e ∈ s.queue ∨ s.nextId ≤ e.1) (hid : parent.id = frame.id)
        (hchildren : ∀ id, some id ∈ parent.children → some id ∈ frame.children ∨
          id < s₁.nextId ∧ (helped → id ∉ s₁.queue.map Prod.fst)) :
        ∀ f ∈ parent :: stack, FrameInv helped s₁ f := by
      refine forall_mem_cons.2 ⟨⟨hid ▸ Nat.lt_of_lt_of_le htop.id hnext, fun id hmem => ?_⟩,
        fun f hf => (hframes f (mem_cons_of_mem _ hf)).mono hnext hqueue⟩
      exact (hchildren id hmem).elim ((htop.mono hnext hqueue).children id) fun h => h
    have hwaited (rest : PoolThunk) :
        PoolInv helped
          { s with workers := s.workers.set k ({ frame with rest := rest } :: stack) } :=
      hi.set (Nat.le_refl _) (fun e => .inl) (fun id => .inl) rfl
        (hgoesOn _ _ (Nat.le_refl _) (fun e => .inl) rfl fun id => .inl)
    split at hstep
    next =>
      cases hstep
      refine hi.set (Nat.le_refl _) (fun e => .inl) ?_ rfl ?_
      · exact forall_mem_cons.2 ⟨.inr htop.id, fun id => .inl⟩
      · intro f hf
        exact (hframes f (mem_cons_of_mem _ hf)).mono (Nat.le_refl _) fun e => .inl
    next entry token child rest hrest =>
      cases hstep
      have hnew (id : Nat) (hid : some id ∈ frame.children ++ [some s.nextId]) :
          some id ∈ frame.children ∨ id = s.nextId := by
        simpa using hid
      rcases s.submitNested_cases k frame stack entry ⟨token, child⟩ rest allocated with
        ⟨h, -⟩ | ⟨h, -⟩ | ⟨h, rfl, hcanceled, hclosed, hlt⟩
      · rw [h]
        refine hi.execute rfl rfl (Nat.le_succ _) (fun e => id) (Nat.lt_succ_self _) ?_
        refine hgoesOn _ _ ?_ ?_ ?_ ?_
        · exact Nat.le_succ _
        · exact fun e => .inl
        · rfl
        intro id hid
        rcases hnew id hid with hold | rfl
        · exact .inl hold
        · refine .inr ⟨Nat.lt_succ_self _, fun _ hmem => ?_⟩
          obtain ⟨e, he, heq⟩ := mem_map.1 hmem
          exact absurd (hi.queue e he) (heq ▸ Nat.lt_irrefl _)
      · rw [h]
        refine hi.set (Nat.le_succ _) (fun e => .inl) (fun id => .inl) rfl ?_
        refine hgoesOn _ _ ?_ ?_ ?_ ?_
        · exact Nat.le_succ _
        · exact fun e => .inl
        · rfl
        intro id hid
        exact .inl (by simpa using hid)
      · -- here the child is queued, so the worker need not help
        have hunhelped : ¬ helped := by
          intro hhelped
          have := hroom hhelped k allocated frame stack token child rest rfl hbusy hrest
          simp only [hcanceled, hclosed, Bool.false_eq_true, false_or] at this
          omega
        have hqueue : ∀ e ∈ s.queue ++ [(s.nextId, (⟨token, child⟩ : PoolTask))],
            e ∈ s.queue ∨ s.nextId ≤ e.1 ∧ e.1 < s.nextId + 1 := by
          refine forall_mem_append.2 ⟨fun e => .inl, forall_mem_singleton.2 (.inr ?_)⟩
          exact ⟨Nat.le_refl _, Nat.lt_succ_self _⟩
        rw [h]
        refine hi.set (Nat.le_succ _) hqueue (fun id => .inl) rfl ?_
        refine hgoesOn _ _ ?_ ?_ ?_ ?_
        · exact Nat.le_succ _
        · exact fun e he => (hqueue e he).imp_right And.left
        · rfl
        intro id hid
        rcases hnew id hid with hold | rfl
        · exact .inl hold
        · exact .inr ⟨Nat.lt_succ_self _, fun hhelped => absurd hhelped hunhelped⟩
    next child rest hrest =>
      split at hstep
      next =>
        split at hstep
        · cases hstep
          exact hwaited rest
        · cases hstep
      next =>
        cases hstep
        exact hwaited rest

lemma PoolInv.step (hi : PoolInv helped s)
    (hroom : helped → FindsNoRoom s move) (hstep : s.step move = some s') : PoolInv helped s' := by
  cases move with
  | worker k allocated => exact hi.stepWorker hroom hstep
  | outside task =>
    -- no worker moves; the task gets the next number
    have hkeeps (s₁ : PoolState) (hnext : s₁.nextId = s.nextId + 1)
      (hworkers : s₁.workers = s.workers)
        (hqueue : ∀ e ∈ s₁.queue, e ∈ s.queue ∨ e.1 = s.nextId)
        (hdelivered : ∀ id ∈ s₁.delivered, id ∈ s.delivered ∨ id = s.nextId) :
        PoolInv helped s₁ := by
      refine ⟨hworkers ▸ hi.nonempty, ?_, ?_, ?_⟩
      · intro e he
        rcases hqueue e he with he | he
        · exact hnext ▸ Nat.lt_succ_of_lt (hi.queue e he)
        · rw [hnext, he]
          exact Nat.lt_succ_self _
      · intro id hid
        rcases hdelivered id hid with hid | rfl
        · exact hnext ▸ Nat.lt_succ_of_lt (hi.delivered id hid)
        · rw [hnext]
          exact Nat.lt_succ_self _
      · intro st hst f hf
        refine (hi.frames st (hworkers ▸ hst) f hf).mono ?_ ?_
        · rw [hnext]
          exact Nat.le_succ _
        · exact fun e he => (hqueue e he).imp_right fun heq => Nat.le_of_eq heq.symm
    simp only [PoolState.step] at hstep
    split at hstep
    · cases hstep
      exact hkeeps _ rfl rfl (fun e => .inl) fun id hid => (mem_cons.1 hid).symm
    split at hstep
    · cases hstep
      exact hkeeps _ rfl rfl (fun e => .inl) fun id => .inl
    split at hstep
    · cases hstep
      refine hkeeps _ rfl rfl (forall_mem_append.2 ⟨fun e => .inl, ?_⟩) fun id => .inl
      exact forall_mem_singleton.2 (.inr rfl)
    · cases hstep
  | cancel token | drop =>
    cases hstep
    exact ⟨hi.nonempty, hi.queue, hi.delivered, fun st hst f hf =>
      (hi.frames st hst f hf).mono (Nat.le_refl _) fun e => .inl⟩

lemma PoolInv.new {workerCount admissionBound : Nat}
    (hnew : PoolState.new workerCount admissionBound = some s) : PoolInv helped s := by
  unfold PoolState.new at hnew
  split at hnew
  · cases hnew
  split at hnew
  · cases hnew
  next hcount _ =>
    cases hnew
    refine ⟨?_, by simp, by simp, ?_⟩
    · simpa using hcount
    · intro stack hstack frame hframe
      rw [eq_of_mem_replicate hstack] at hframe
      cases hframe

lemma PoolInv.not_stranded (hi : PoolInv True s) (hstack : stack ∈ s.workers) :
    ¬ s.Stranded stack := by
  rintro ⟨frame, below, child, rest, id, rfl, -, hchild, hqueued⟩
  exact ((hi.frames _ hstack frame mem_cons_self).children id
    (mem_of_getElem? hchild)).2 trivial hqueued

lemma PoolState.step_submit {entry : PoolEntry}
    {token : Option Nat} {child rest : PoolThunk} (hbusy : s.workers[k]? = some (frame :: stack))
    (hrest : frame.rest = .submit entry token child rest) : s.step (.worker k allocated) =
      some (s.submitNested k frame stack entry ⟨token, child⟩ rest allocated) := by
  unfold step stepWorker
  simp only [hbusy, hrest]

/-- A submission by a worker executes inline exactly when `try_submit` finds no room. -/
lemma PoolInv.submitsInline_iff (hi : PoolInv False s) :
    SubmitsInline s move ↔ FindsNoRoom s move := by
  have hset {k : Nat} {frame : PoolFrame} {stack new : List PoolFrame}
      (hbusy : s.workers[k]? = some (frame :: stack)) : (s.workers.set k new)[k]? = some new :=
    List.getElem?_set_self (List.getElem?_eq_some_iff.1 hbusy).1
  constructor
  · intro hinline k allocated frame stack token child rest hmove hbusy hrest
    subst hmove
    have hcases := hinline k allocated frame stack .trySubmit token child rest _ rfl hbusy hrest
      (PoolState.step_submit hbusy hrest)
    rcases s.submitNested_cases k frame stack .trySubmit ⟨token, child⟩ rest allocated with
      ⟨-, hroom⟩ | ⟨-, hclosed⟩ | ⟨h, -⟩
    · exact hroom rfl
    · exact .inr (.inl hclosed)
    · -- a queued child has no outcome and no frame, and is not refused
      rw [h] at hcases
      rcases hcases with hdelivered | ⟨parent, hworker⟩ | ⟨parent, hworker, hchildren⟩
      · exact absurd (hi.delivered _ hdelivered) (Nat.lt_irrefl _)
      · rw [hset hbusy] at hworker
        have := congrArg List.length (Option.some.inj hworker)
        simp at this
      · rw [hset hbusy] at hworker
        obtain ⟨rfl, -⟩ := List.cons.inj (Option.some.inj hworker)
        simp at hchildren
  · intro hroom k allocated frame stack entry token child rest s₁ hmove hbusy hrest hs₁
    subst hmove
    rw [PoolState.step_submit hbusy hrest] at hs₁
    cases hs₁
    rcases s.submitNested_cases k frame stack entry ⟨token, child⟩ rest allocated with
      ⟨h, -⟩ | ⟨h, -⟩ | ⟨h, rfl, hcanceled, hclosed, hlt⟩
    · rw [h]
      rcases PoolState.execute_cases { s with nextId := s.nextId + 1 } k s.nextId ⟨token, child⟩
        ({ frame with children := frame.children ++ [some s.nextId], rest := rest } :: stack)
        allocated with h | h
      · rw [h]
        exact .inl mem_cons_self
      · rw [h]
        exact .inr (.inl ⟨_, hset hbusy⟩)
    · rw [h]
      exact .inr (.inr ⟨_, hset hbusy, rfl⟩)
    · have := hroom k allocated frame stack token child rest rfl hbusy hrest
      simp only [hcanceled, hclosed, Bool.false_eq_true, false_or] at this
      omega

end Inv

/-- In every run of the pool, the submissions of the workers execute inline and the workers are
not deadlocked exactly when no worker calls `try_submit` on a task that is not canceled while the
queue has room. -/
theorem workerPool_inline {workerCount admissionBound : Nat} {s₀ s : PoolState}
    (hnew : PoolState.new workerCount admissionBound = some s₀) {moves : List PoolMove}
    (hrun : runSchedule PoolState.step moves s₀ = some s) :
    (Along PoolState.step SubmitsInline moves s₀ ∧ ¬ s.Deadlocked) ↔
      Along PoolState.step FindsNoRoom moves s₀ := by
  have hiff : Along PoolState.step SubmitsInline moves s₀ ↔
      Along PoolState.step FindsNoRoom moves s₀ :=
    Along.iff_of_step (fun _ _ _ hi => hi.step (fun h => h.elim))
      (fun _ _ _ hi _ => hi.submitsInline_iff) (PoolInv.new hnew : PoolInv False s₀) hrun
  rw [hiff, and_iff_left_iff_imp]
  intro hroom hdeadlocked
  have hi : PoolInv True s := hroom.invariant (fun _ _ _ hcond hi => hi.step fun _ => hcond)
    (PoolInv.new hnew) hrun
  obtain ⟨stack, hstack⟩ := exists_mem_of_ne_nil _ hi.nonempty
  exact hi.not_stranded hstack (hdeadlocked stack hstack)

/-- A task that hands a child to the pool and waits for it. -/
def waitingParent (entry : PoolEntry) : PoolTask :=
  ⟨none, .submit entry none .finish (.wait 0 .finish)⟩

/-- With `submit` the worker runs the child on top of the parent and then goes on. -/
theorem workerPool_inline_submit :
    (Along PoolState.step SubmitsInline [.outside (waitingParent .submit), .worker 0 true,
        .worker 0 true, .worker 0 true, .worker 0 true, .worker 0 true]
        ⟨1, false, [], 0, [], [[]], []⟩ ∧
      ¬ PoolState.Deadlocked ⟨1, false, [], 2, [], [[]], [0, 1]⟩) ↔
    Along PoolState.step FindsNoRoom [.outside (waitingParent .submit), .worker 0 true,
        .worker 0 true, .worker 0 true, .worker 0 true, .worker 0 true]
        ⟨1, false, [], 0, [], [[]], []⟩ :=
  workerPool_inline (show PoolState.new 1 1 = _ from rfl) rfl

/-- With `try_submit` and room in the queue the only worker waits for a child that only it could
take. -/
theorem workerPool_deadlock : ∃ s₀ s, PoolState.new 1 1 = some s₀ ∧
      runSchedule PoolState.step [.outside (waitingParent .trySubmit), .worker 0 true,
        .worker 0 true] s₀ = some s ∧
      s.Deadlocked ∧ ∀ k allocated, s.step (.worker k allocated) = none := by
  refine ⟨_, ⟨1, false, [], 2, [(1, ⟨none, .finish⟩)], [[⟨0, [some 1], .wait 0 .finish⟩]], []⟩,
    rfl, rfl, ?_, ?_⟩
  · intro stack hstack
    rw [mem_singleton.1 hstack]
    exact ⟨_, _, 0, .finish, 1, rfl, rfl, rfl, by decide⟩
  · intro k allocated
    cases k with
    | zero => rfl
    | succ k => rfl

/-! ## Every task is in one place -/

namespace PoolState

variable {s s' : PoolState} {k : Nat} {old : List PoolFrame}

/-- The number of places a task is in: the queue, the workers, the outcomes. -/
def places (s : PoolState) (id : Nat) : Nat :=
  (s.queue.map Prod.fst).count id + (s.workers.flatten.map PoolFrame.id).count id +
    s.delivered.count id

lemma count_set {workers : List (List PoolFrame)} (hold : workers[k]? = some old)
    (new : List PoolFrame) (id : Nat) :
    ((workers.set k new).flatten.map PoolFrame.id).count id + (old.map PoolFrame.id).count id =
      (workers.flatten.map PoolFrame.id).count id + (new.map PoolFrame.id).count id := by
  obtain ⟨hk, rfl⟩ := List.getElem?_eq_some_iff.1 hold
  conv_rhs => rw [← take_append_drop k workers, drop_eq_getElem_cons hk]
  simp only [set_eq_take_append_cons_drop, if_pos hk, flatten_append, flatten_cons, map_append,
    count_append]
  omega

/-- A step moves the tasks around, or it numbers one, which is refused only after the pool was
dropped. -/
def Accounts (s s' : PoolState) : Prop :=
  (s.closed = true → s'.closed = true) ∧
    (s'.nextId = s.nextId ∧ (∀ id, s'.places id = s.places id) ∨
      s'.nextId = s.nextId + 1 ∧ ((∀ id, s'.places id = s.places id + [s.nextId].count id) ∨
        s.closed = true ∧ ∀ id, s'.places id = s.places id))

lemma places_execute (s : PoolState) (id : Nat) (task : PoolTask) (stack : List PoolFrame)
    (allocated : Bool) (hold : s.workers[k]? = some old) :
    let s' := s.execute k id task stack allocated
    s'.closed = s.closed ∧ s'.nextId = s.nextId ∧ ∀ id', s'.places id' +
      (old.map PoolFrame.id).count id' =
      s.places id' + ((id :: stack.map PoolFrame.id).count id') := by
  rcases s.execute_cases k id task stack allocated with h | h
  · refine ⟨by rw [h], by rw [h], fun id' => ?_⟩
    have hset := count_set hold stack id'
    simp only [h, places, count_cons]
    omega
  · refine ⟨by rw [h], by rw [h], fun id' => ?_⟩
    have hset := count_set hold (⟨id, [], task.thunk⟩ :: stack) id'
    simp only [map_cons] at hset
    simp only [h, places]
    omega

lemma accounts_stepWorker {allocated : Bool} (hstep : s.stepWorker k allocated = some s') :
    s.Accounts s' := by
  unfold stepWorker at hstep
  split at hstep
  · cases hstep
  next hidle =>
    split at hstep
    · cases hstep
    next id task queue hqueue =>
      cases hstep
      obtain ⟨hclosed, hnext, hplaces⟩ :=
        places_execute { s with queue := queue } id task [] allocated hidle
      refine ⟨hclosed.trans, .inl ⟨hnext, fun id' => ?_⟩⟩
      have := hplaces id'
      simp only [places, hqueue, map_cons, map_nil, count_cons, count_nil] at this ⊢
      omega
  next frame stack hbusy =>
    have hgoesOn (children : List (Option Nat)) (rest : PoolThunk) (id : Nat) :
        ((s.workers.set k (⟨frame.id, children, rest⟩ :: stack)).flatten.map
          PoolFrame.id).count id =
          (s.workers.flatten.map PoolFrame.id).count id := by
      have hset := count_set hbusy (⟨frame.id, children, rest⟩ :: stack) id
      simp only [map_cons] at hset
      omega
    split at hstep
    next =>
      cases hstep
      refine ⟨fun hc => hc, .inl ⟨rfl, fun id => ?_⟩⟩
      have hset := count_set hbusy stack id
      simp only [places, map_cons, count_cons] at hset ⊢
      omega
    next entry token child rest hrest =>
      cases hstep
      -- the child runs on top of its parent, is refused, or is queued
      rcases s.submitNested_cases k frame stack entry ⟨token, child⟩ rest allocated with
        ⟨h, -⟩ | ⟨h, hclosed⟩ | ⟨h, -⟩
      · obtain ⟨hclosed, hnext, hplaces⟩ :=
          places_execute { s with nextId := s.nextId + 1 } s.nextId
          ⟨token, child⟩ ({ frame with
            children := frame.children ++ [some s.nextId], rest := rest } :: stack) allocated hbusy
        rw [h]
        refine ⟨hclosed.trans, .inr ⟨hnext, .inl fun id => ?_⟩⟩
        have := hplaces id
        simp only [places, map_cons, count_cons, count_nil] at this ⊢
        omega
      · rw [h]
        refine ⟨fun hc => hc, .inr ⟨rfl, .inr ⟨hclosed, fun id => ?_⟩⟩⟩
        simp only [places, hgoesOn]
      · rw [h]
        refine ⟨fun hc => hc, .inr ⟨rfl, .inl fun id => ?_⟩⟩
        simp only [places, hgoesOn, map_append, count_append, map_cons, map_nil]
        omega
    next child rest hrest =>
      have hwaited : s.Accounts
          { s with workers := s.workers.set k ({ frame with rest := rest } :: stack) } :=
        ⟨fun hc => hc, .inl ⟨rfl, fun id => by simp only [places, hgoesOn]⟩⟩
      split at hstep
      next =>
        split at hstep
        · cases hstep
          exact hwaited
        · cases hstep
      next =>
        cases hstep
        exact hwaited

lemma accounts_step {move : PoolMove} (hstep : s.step move = some s') : s.Accounts s' := by
  cases move with
  | worker k allocated => exact accounts_stepWorker hstep
  | outside task =>
    simp only [step] at hstep
    split_ifs at hstep with hcanceled hclosed <;> cases hstep
    · refine ⟨fun hc => hc, .inr ⟨rfl, .inl fun id => ?_⟩⟩
      simp only [places, count_cons, count_nil]
      omega
    · exact ⟨fun hc => hc, .inr ⟨rfl, .inr ⟨hclosed, fun id => rfl⟩⟩⟩
    · refine ⟨fun hc => hc, .inr ⟨rfl, .inl fun id => ?_⟩⟩
      simp only [places, map_append, count_append, map_cons, map_nil]
      omega
  | cancel token =>
    cases hstep
    exact ⟨fun hc => hc, .inl ⟨rfl, fun id => rfl⟩⟩
  | drop =>
    cases hstep
    exact ⟨fun _ => rfl, .inl ⟨rfl, fun id => rfl⟩⟩

/-- Every task that was numbered is in one place, unless a dropped pool has refused it. -/
def Accounted (s : PoolState) : Prop :=
  ∀ id, (s.places id ≤ if id < s.nextId then 1 else 0) ∧
    (s.closed = false → s.places id = if id < s.nextId then 1 else 0)

lemma Accounted.step {move : PoolMove} (h : s.Accounted) (hstep : s.step move = some s') :
    s'.Accounted := by
  intro id
  obtain ⟨hle, hopen⟩ := h id
  obtain ⟨hclosed, hmoved⟩ := accounts_step hstep
  have hopen' : s'.closed = false → _ := fun h' => hopen (by simpa [h'] using hclosed)
  rcases hmoved with ⟨hnext, hplaces⟩ | ⟨hnext, hplaces | ⟨hrefused, hplaces⟩⟩
  · rw [hnext, hplaces]
    exact ⟨hle, hopen'⟩
  · rw [hnext, hplaces]
    -- the task that is numbered was in no place before
    by_cases hid : id = s.nextId
    · rw [if_neg (by omega)] at hle
      simp [hid] at hle ⊢
      omega
    · have hiff : id < s.nextId + 1 ↔ id < s.nextId := by omega
      simpa [hiff, Ne.symm hid] using ⟨hle, hopen'⟩
  · rw [hnext, hplaces]
    refine ⟨Nat.le_trans hle ?_, fun h' => ?_⟩
    · split_ifs <;> omega
    · exact absurd (hclosed hrefused) (by simp [h'])

/-- No task is lost or duplicated: in every run a task that was numbered is in the queue, on one
worker or among the outcomes, and in one place only, unless a dropped pool has refused it. -/
theorem workerPool_tasks {workerCount admissionBound : Nat} {s₀ s : PoolState}
    (hnew : PoolState.new workerCount admissionBound = some s₀) {moves : List PoolMove}
    (hrun : runSchedule PoolState.step moves s₀ = some s) (id : Nat) :
    (s.places id ≤ if id < s.nextId then 1 else 0) ∧
      (s.closed = false → s.places id = if id < s.nextId then 1 else 0) := by
  have hstart : s₀.Accounted := by
    unfold PoolState.new at hnew
    split_ifs at hnew
    cases hnew
    intro id
    simp [places]
  exact runSchedule_invariant (fun _ _ _ => Accounted.step) hstart hrun id

/-- A child is queued by one worker and taken by the other one. -/
theorem workerPool_tasks_queued : ∃ s₀ moves s, PoolState.new 2 1 = some s₀ ∧
    runSchedule PoolState.step moves s₀ = some s ∧ s.places 1 = if 1 < s.nextId then 1 else 0 := by
  have hnew : PoolState.new 2 1 = some ⟨1, false, [], 0, [], [[], []], []⟩ := rfl
  have hrun : runSchedule PoolState.step [.outside ⟨none, .submit .trySubmit none .finish .finish⟩,
      .worker 0 true, .worker 0 true, .worker 1 true] ⟨1, false, [], 0, [], [[], []], []⟩ =
    some ⟨1, false, [], 2, [], [[⟨0, [some 1], .finish⟩], [⟨1, [], .finish⟩]], []⟩ := rfl
  exact ⟨_, _, _, hnew, hrun, (workerPool_tasks hnew hrun 1).2 rfl⟩

end PoolState

end Arandu.Runtime
