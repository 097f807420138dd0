import Mathlib.Algebra.GroupWithZero.Nat
import Mathlib.Data.List.Nodup
import Mathlib.Order.Lattice
import Arandu.Library.Schedule

/-!
# The parallel fold

`worker_scheduler/parallel.rs`: the workers of a fold claim chunks from a shared counter and run the
chunk task on them. A worker stops at its first failing chunk and raises the stop flag, which the
others look at before they claim.

The steps of `execute_chunks` that touch shared memory are the steps of `FoldJob.step`; a schedule
says which worker moves. The invariant counts, for every chunk, where it is: executed, held by a
worker that has claimed it, or still ahead of the counter.
-/

namespace Arandu.Runtime

open Arandu.Library List Subset Option

/-! ## Workers -/

def maxParallelWorkers : Nat := 64

def workCompleted : Int := 0

def workFailed : Int := 1

def workCanceled : Int := 2

/-- `DynamicBatchOutcome`. -/
structure BatchOutcome where
  firstError : Option (Nat × Int)
  externallyCanceled : Bool
deriving DecidableEq, Repr

inductive BatchPoint where
  /-- about to look at the stop flag -/
  | check
  /-- about to advance the shared counter -/
  | claim
  /-- about to call the chunk task -/
  | run (index : Nat)
  /-- the chunk task has returned -/
  | record (index : Nat) (code : Int)
  /-- about to raise the stop flag -/
  | raise
  /-- out of the loop -/
  | done
deriving DecidableEq, Repr

structure BatchWorker where
  point : BatchPoint
  outcome : BatchOutcome
deriving DecidableEq, Repr

def BatchWorker.start : BatchWorker := ⟨.check, ⟨none, false⟩⟩

/-- The arguments of a fold. The contexts and the results are arrays of `numChunks` pointers, and
no array is larger than half of the address space. -/
structure FoldJob where
  numChunks : Nat
  /-- the code that the task returns for a chunk -/
  task : Nat → Int
  workers : Nat
  /-- the value of the stop flag, if there is one -/
  stopFlag : Option Int
  fits : numChunks * 8 < 2 ^ 63

/-- `ParallelWorkerShared` and the workers; `executed` is the ghost list of the chunks on which the
task has been called. -/
structure FoldState where
  nextChunk : Nat
  stopFlag : Option Int
  executed : List Nat
  workers : List BatchWorker
deriving DecidableEq, Repr

/-- The stop flag asks the workers to stop. -/
def stopRequested (stop : Option Int) : Bool :=
  match stop with
  | none => false
  | some value => value != 0

/-- The failure of a chunk enters the outcome unless one of a smaller index is there. -/
def BatchOutcome.fail (outcome : BatchOutcome) (index : Nat) (code : Int) : BatchOutcome :=
  match outcome.firstError with
  | none => { outcome with firstError := some (index, code) }
  | some (prev, _) =>
    if index < prev then { outcome with firstError := some (index, code) } else outcome

namespace FoldJob

variable (job : FoldJob)

def width : Nat := min (min (max job.workers 1) maxParallelWorkers) job.numChunks

/-- One step of the worker in `execute_chunks`: what it becomes, and the shared memory. -/
def advance (s : FoldState) (w : BatchWorker) : Option (BatchWorker × FoldState) :=
  match w.point with
  | .check =>
    if stopRequested s.stopFlag then
      some ({ point := .done, outcome := { w.outcome with externallyCanceled := true } }, s)
    else some ({ w with point := .claim }, s)
  | .claim =>
    let index := s.nextChunk
    let s := { s with nextChunk := (s.nextChunk + 1) % 2 ^ 64 }
    if job.numChunks ≤ index then some ({ w with point := .done }, s)
    else some ({ w with point := .run index }, s)
  | .run index =>
    some ({ w with point := .record index (job.task index) },
      { s with executed := s.executed ++ [index] })
  | .record index code =>
    if code ≠ workCompleted then
      some ({ point := .raise, outcome := w.outcome.fail index code }, s)
    else some ({ w with point := .check }, s)
  | .raise =>
    some ({ w with point := .done }, { s with stopFlag := s.stopFlag.map fun _ => 1 })
  | .done => none

/-- The worker with the given number moves. -/
def step (s : FoldState) (k : Nat) : Option FoldState :=
  match s.workers[k]? with
  | none => none
  | some w =>
    match job.advance s w with
    | none => none
    | some (w', s') => some { s' with workers := s.workers.set k w' }

/-- The shared memory after `submitted` tasks have been given to the pool. -/
def start (submitted : Nat) : FoldState :=
  ⟨0, job.stopFlag, [], replicate (submitted + 1) .start⟩

end FoldJob

/-! ## Results -/

/-- What a fold leaves behind. -/
structure FoldResult where
  executed : List Nat
  stopFlag : Option Int
  code : Int
deriving DecidableEq, Repr

/-- The outcome of one more worker. -/
def BatchOutcome.absorb (merged outcome : BatchOutcome) : BatchOutcome :=
  let merged :=
    { merged with externallyCanceled := merged.externallyCanceled || outcome.externallyCanceled }
  match outcome.firstError with
  | none => merged
  | some (index, code) => merged.fail index code

open BatchOutcome

/-- The loop over the pending results, from the outcome of the calling thread on. -/
def mergeOutcomes (main : BatchOutcome) (pending : List BatchOutcome) : BatchOutcome :=
  pending.foldl absorb main

namespace FoldJob

variable (job : FoldJob)

/-- The end of `ar_rt_parallel_fold_run`, when all workers have left the loop. -/
def finish (submitted : Nat) (s : FoldState) : FoldResult :=
  match s.workers.map BatchWorker.outcome with
  | [] => ⟨s.executed, s.stopFlag, workFailed⟩
  | main :: pending =>
    let merged := mergeOutcomes main pending
    if submitted < job.width - 1 then ⟨s.executed, s.stopFlag, workFailed⟩
    else
      match merged.firstError with
      | some (_, code) => ⟨s.executed, s.stopFlag.map fun _ => 1, code⟩
      | none =>
        ⟨s.executed, s.stopFlag, if merged.externallyCanceled then workCanceled else workCompleted⟩

/-- The loop of the calling thread when it works alone. -/
def runInline : List Nat → Option Int → List Nat → FoldResult
  | [], stop, executed => ⟨executed, stop, 0⟩
  | index :: rest, stop, executed =>
    if stopRequested stop then ⟨executed, stop, workCanceled⟩
    else
      let code := job.task index
      if code ≠ 0 then ⟨executed ++ [index], stop.map fun _ => 1, code⟩
      else runInline rest stop (executed ++ [index])

/-- The possible results of `ar_rt_parallel_fold_run` with valid pointers, when the pool has
accepted `submitted` tasks. -/
inductive Run (submitted : Nat) : FoldResult → Prop
  | empty (hn : job.numChunks = 0) : Run submitted ⟨[], job.stopFlag, 0⟩
  | inline (hn : job.numChunks ≠ 0) (hw : job.width ≤ 1 ∨ job.numChunks = 1) :
      Run submitted (job.runInline (range job.numChunks) job.stopFlag [])
  | parallel (hn : job.numChunks ≠ 0) (hw : ¬ (job.width ≤ 1 ∨ job.numChunks = 1))
      {schedule : List Nat} {s : FoldState}
      (hrun : runSchedule job.step schedule (job.start submitted) = some s)
      (hdone : ∀ w ∈ s.workers, w.point = .done) : Run submitted (job.finish submitted s)

end FoldJob

/-! ## Where the chunks are -/

def BatchWorker.claims (index : Nat) (w : BatchWorker) : Bool := w.point == .run index

def BatchWorker.isDone (w : BatchWorker) : Bool := w.point == .done

/-- What the position of a worker says about its outcome and the shared memory. -/
structure WorkerInv (job : FoldJob) (s : FoldState) (w : BatchWorker) : Prop where
  /-- a returned code is that of an executed chunk -/
  record : ∀ i c, w.point = .record i c → i ∈ s.executed ∧ c = job.task i
  /-- a recorded failure is one of an executed chunk, and the last thing the worker does -/
  failed : ∀ i c, w.outcome.firstError = some (i, c) →
    i ∈ s.executed ∧ c = job.task i ∧ c ≠ 0 ∧ (w.point = .raise ∨ w.point = .done)
  raised : w.point = .raise → w.outcome.firstError ≠ none
  /-- a worker that neither failed nor saw the flag has run out of chunks -/
  exhausted : w.point = .done → w.outcome.firstError = none →
    w.outcome.externallyCanceled = false → job.numChunks ≤ s.nextChunk

/-- Every chunk is executed, claimed or ahead of the counter; failures are not lost. -/
structure FoldInv (job : FoldJob) (s : FoldState) : Prop where
  nonempty : s.workers ≠ []
  width : s.workers.length ≤ 64
  /-- the counter passes the end once for each worker that is done -/
  next : s.nextChunk ≤ job.numChunks + s.workers.countP BatchWorker.isDone
  once : ∀ i, s.executed.count i + s.workers.countP (BatchWorker.claims i) =
    if i < s.nextChunk ∧ i < job.numChunks then 1 else 0
  failures : ∀ i ∈ s.executed, job.task i ≠ 0 → ∃ w ∈ s.workers,
    w.point = .record i (job.task i) ∨ w.outcome.firstError = some (i, job.task i)
  workers : ∀ w ∈ s.workers, WorkerInv job s w
  /-- the flag is raised, and seen raised, only after a failure -/
  stop : stopRequested s.stopFlag = true → ∃ w ∈ s.workers, w.outcome.firstError ≠ none
  canceled : ∀ w ∈ s.workers, w.outcome.externallyCanceled = true →
    ∃ w' ∈ s.workers, w'.outcome.firstError ≠ none

section Step

variable {job : FoldJob} {s s' s₁ : FoldState} {w w' : BatchWorker} {pre post : List BatchWorker}

open FoldJob

/-- A step replaces one worker and changes the shared memory as `advance` says. -/
lemma FoldJob.step_cases {k : Nat} (hstep : job.step s k = some s') :
    ∃ pre w post w' s₁, s.workers = pre ++ w :: post ∧ job.advance s w = some (w', s₁) ∧
      s' = { s₁ with workers := pre ++ w' :: post } := by
  unfold step at hstep
  split at hstep
  · cases hstep
  next w hw =>
    split at hstep
    · cases hstep
    next w' s₁ hadvance =>
      obtain ⟨hk, rfl⟩ := List.getElem?_eq_some_iff.1 hw
      obtain ⟨pre, post, hworkers, -, hset⟩ := @exists_of_set _ k w' s.workers hk
      rw [hset] at hstep
      exact ⟨pre, _, post, w', s₁, hworkers, hadvance, (some.inj hstep).symm⟩

lemma WorkerInv.mono (hw : WorkerInv job s w) (hexecuted : s.executed ⊆ s'.executed)
    (hnext : s.nextChunk ≤ s'.nextChunk) : WorkerInv job s' w where
  record i c hpoint := ⟨hexecuted (hw.record i c hpoint).1, (hw.record i c hpoint).2⟩
  failed i c herror := ⟨hexecuted (hw.failed i c herror).1, (hw.failed i c herror).2⟩
  raised := hw.raised
  exhausted hdone herror hcanceled := (hw.exhausted hdone herror hcanceled).trans hnext

/-- What a step of one worker has to respect. -/
structure WorkerStep (job : FoldJob) (s s' : FoldState) (w w' : BatchWorker) : Prop where
  executed : s.executed ⊆ s'.executed
  mono : s.nextChunk ≤ s'.nextChunk
  next : s'.nextChunk ≤ job.numChunks ∨ s'.nextChunk ≤ s.nextChunk ∨
    s'.nextChunk = s.nextChunk + 1 ∧ w'.isDone = true
  active : w.isDone = false
  once : ∀ i, s'.executed.count i + (if w'.claims i then 1 else 0) +
      (if i < s.nextChunk ∧ i < job.numChunks then 1 else 0) =
    s.executed.count i + (if w.claims i then 1 else 0) +
      (if i < s'.nextChunk ∧ i < job.numChunks then 1 else 0)
  failures : ∀ i ∈ s'.executed, job.task i ≠ 0 →
    (i ∈ s.executed ∧ w.point ≠ .record i (job.task i) ∧
      w.outcome.firstError ≠ some (i, job.task i)) ∨
    w'.point = .record i (job.task i) ∨ w'.outcome.firstError = some (i, job.task i)
  worker : WorkerInv job s' w'
  keeps : w.outcome.firstError ≠ none → w'.outcome.firstError ≠ none
  stop : stopRequested s'.stopFlag = true →
    stopRequested s.stopFlag = true ∨ w'.outcome.firstError ≠ none
  canceled : w'.outcome.externallyCanceled = true →
    w.outcome.externallyCanceled = true ∨ stopRequested s.stopFlag = true

lemma FoldInv.replace (hi : FoldInv job s) (hworkers : s.workers = pre ++ w :: post)
    (hstep : WorkerStep job s s' w w') (hworkers' : s'.workers = pre ++ w' :: post) :
    FoldInv job s' := by
  have hmem' : w' ∈ s'.workers := by rw [hworkers']; simp
  have hkept {v : BatchWorker} (hv : v ∈ s.workers) : v = w ∨ v ∈ s'.workers := by
    rw [hworkers, mem_append, mem_cons] at hv
    rw [hworkers', mem_append]
    tauto
  have hknown {v : BatchWorker} (hv : v ∈ s'.workers) : v = w' ∨ v ∈ s.workers := by
    rw [hworkers', mem_append, mem_cons] at hv
    rw [hworkers, mem_append]
    tauto
  -- a recorded failure stays recorded
  have hfailed : (∃ v ∈ s.workers, v.outcome.firstError ≠ none) →
      ∃ v ∈ s'.workers, v.outcome.firstError ≠ none := by
    rintro ⟨v, hv, herror⟩
    rcases hkept hv with rfl | hv
    · exact ⟨w', hmem', hstep.keeps herror⟩
    · exact ⟨v, hv, herror⟩
  exact {
    nonempty := ne_nil_of_mem hmem'
    width := by
      have := hi.width
      rw [hworkers] at this
      rw [hworkers']
      simpa using this
    next := by
      have hnext := hi.next
      rw [hworkers] at hnext
      rw [hworkers']
      simp only [countP_append, countP_cons, hstep.active] at hnext ⊢
      rcases hstep.next with h | h | ⟨h, hdone⟩
      · omega
      · simp only [Bool.false_eq_true, if_false] at hnext
        omega
      · simp only [Bool.false_eq_true, if_false] at hnext
        simp only [hdone, if_true]
        omega
    once := fun i => by
      have honce := hi.once i
      have hchange := hstep.once i
      rw [hworkers] at honce
      rw [hworkers']
      simp only [countP_append, countP_cons] at honce ⊢
      omega
    failures := fun i hi' hfails => by
      rcases hstep.failures i hi' hfails with ⟨hold, hrecord, herror⟩ | hnew
      · obtain ⟨v, hv, hcase⟩ := hi.failures i hold hfails
        rcases hkept hv with rfl | hv
        · exact absurd hcase (not_or.2 ⟨hrecord, herror⟩)
        · exact ⟨v, hv, hcase⟩
      · exact ⟨w', hmem', hnew⟩
    workers := fun v hv => by
      rcases hknown hv with rfl | hv
      · exact hstep.worker
      · exact (hi.workers v hv).mono hstep.executed hstep.mono
    stop := fun hstop => by
      rcases hstep.stop hstop with hstop | herror
      · exact hfailed (hi.stop hstop)
      · exact ⟨w', hmem', herror⟩
    canceled := fun v hv hcanceled => by
      apply hfailed
      rcases hknown hv with rfl | hv
      · rcases hstep.canceled hcanceled with hcanceled | hstop
        · exact hi.canceled w (by rw [hworkers]; simp) hcanceled
        · exact hi.stop hstop
      · exact hi.canceled v hv hcanceled }

lemma WorkerStep.clean (hactive : w.isDone = false) (herror : w.outcome.firstError = none)
    (herror' : w'.outcome.firstError = none) (hraise : w'.point ≠ .raise)
    (hflag : s'.stopFlag = s.stopFlag) (hexecuted : s.executed ⊆ s'.executed)
    (hmono : s.nextChunk ≤ s'.nextChunk)
    (hnext : s'.nextChunk ≤ job.numChunks ∨ s'.nextChunk ≤ s.nextChunk ∨
      s'.nextChunk = s.nextChunk + 1 ∧ w'.isDone = true)
    (honce : ∀ i, s'.executed.count i + (if w'.claims i then 1 else 0) +
        (if i < s.nextChunk ∧ i < job.numChunks then 1 else 0) =
      s.executed.count i + (if w.claims i then 1 else 0) +
        (if i < s'.nextChunk ∧ i < job.numChunks then 1 else 0))
    (hfailures : ∀ i ∈ s'.executed, job.task i ≠ 0 →
      i ∈ s.executed ∧ w.point ≠ .record i (job.task i) ∨ w'.point = .record i (job.task i))
    (hrecord : ∀ i c, w'.point = .record i c → i ∈ s'.executed ∧ c = job.task i)
    (hexhausted : w'.point = .done → w'.outcome.externallyCanceled = false →
      job.numChunks ≤ s'.nextChunk) (hcanceled : w'.outcome.externallyCanceled = true →
      w.outcome.externallyCanceled = true ∨ stopRequested s.stopFlag = true) :
    WorkerStep job s s' w w' where
  executed := hexecuted
  mono := hmono
  next := hnext
  active := hactive
  once := honce
  failures i hi hfails := by
    rcases hfailures i hi hfails with ⟨hold, hrecord⟩ | hnew
    · exact .inl ⟨hold, hrecord, by simp [herror]⟩
    · exact .inr (.inl hnew)
  worker :=
    { record := hrecord
      failed := by simp [herror']
      raised := fun h => absurd h hraise
      exhausted := fun hdone _ => hexhausted hdone }
  keeps h := absurd herror h
  stop h := .inl (hflag ▸ h)
  canceled := hcanceled

/-- The counter does not wrap: it is at most one turn of each worker past the end. -/
lemma FoldInv.nextChunk_succ (hi : FoldInv job s) :
    (s.nextChunk + 1) % 2 ^ 64 = s.nextChunk + 1 := by
  have hnext := hi.next
  have hwidth := hi.width
  have hcount := countP_le_length (p := BatchWorker.isDone) (l := s.workers)
  have hfits := job.fits
  exact Nat.mod_eq_of_lt (by omega)

open BatchPoint

lemma FoldJob.advance_step (hi : FoldInv job s) (hmem : w ∈ s.workers)
    (hadvance : job.advance s w = some (w', s₁)) : WorkerStep job s s₁ w w' := by
  have hw := hi.workers w hmem
  -- a worker in the middle of the loop has not failed yet
  have hclean (hraise : w.point ≠ .raise) (hdone : w.point ≠ .done) :
      w.outcome.firstError = none := by
    by_contra hne
    obtain ⟨⟨i, c⟩, herror⟩ := ne_none_iff_exists'.1 hne
    exact (hw.failed i c herror).2.2.2.elim hraise hdone
  have hactive : w.isDone = false := by
    unfold BatchWorker.isDone
    cases hpoint : w.point with
    | done => simp [advance, hpoint] at hadvance
    | _ => rfl
  unfold advance at hadvance
  split at hadvance
  next hpoint =>
    have herror := hclean (by simp [hpoint]) (by simp [hpoint])
    split at hadvance
    next hstop =>
      cases hadvance
      exact .clean hactive herror herror (by simp) rfl
        (refl _) le_rfl (.inr (.inl le_rfl))
        (by simp [BatchWorker.claims, hpoint]) (fun i hi _ => .inl ⟨hi, by simp [hpoint]⟩) (by simp)
        (by simp) fun _ => .inr hstop
    next hstop =>
      cases hadvance
      exact .clean hactive herror herror (by simp) rfl
        (refl _) le_rfl (.inr (.inl le_rfl))
        (by simp [BatchWorker.claims, hpoint]) (fun i hi _ => .inl ⟨hi, by simp [hpoint]⟩) (by simp)
        (by simp) .inl
  next hpoint =>
    have herror := hclean (by simp [hpoint]) (by simp [hpoint])
    dsimp only at hadvance
    rw [hi.nextChunk_succ] at hadvance
    have hsame : ∀ i, i ≠ s.nextChunk ∨ job.numChunks ≤ s.nextChunk →
        ((i < s.nextChunk + 1 ∧ i < job.numChunks) ↔ (i < s.nextChunk ∧ i < job.numChunks)) := by
      omega
    split at hadvance
    next hend =>
      cases hadvance
      refine .clean hactive herror herror (by simp) rfl
        (refl _) (Nat.le_succ _) (.inr (.inr ⟨rfl, rfl⟩)) (fun i => ?_)
        (fun i hi _ => .inl ⟨hi, by simp [hpoint]⟩) (by simp)
          (fun _ _ => Nat.le_succ_of_le hend) .inl
      rw [if_congr (hsame i (.inr hend)) rfl rfl]
      simp [BatchWorker.claims, hpoint]
    next hlt =>
      cases hadvance
      rw [not_le] at hlt
      refine .clean hactive herror herror (by simp) rfl
        (refl _) (Nat.le_succ _) (.inl hlt) (fun i => ?_)
        (fun i hi _ => .inl ⟨hi, by simp [hpoint]⟩) (by simp) (by simp) .inl
      by_cases heq : i = s.nextChunk
      · subst heq
        simp [BatchWorker.claims, hpoint, hlt]
      · rw [if_congr (hsame i (.inl heq)) rfl rfl]
        simp [BatchWorker.claims, hpoint, Ne.symm heq]
  next index hpoint =>
    have herror := hclean (by simp [hpoint]) (by simp [hpoint])
    cases hadvance
    refine .clean hactive herror herror (by simp) rfl
      (subset_append_left _ _) le_rfl (.inr (.inl le_rfl)) (fun i => ?_)
      (fun i hi _ => ?_) (fun i c hrecord => ?_) (by simp) .inl
    · simp only [BatchWorker.claims, hpoint, count_append, count_singleton]
      by_cases heq : index = i <;> simp
    · rcases mem_append.1 hi with hi | hi
      · exact .inl ⟨hi, by simp [hpoint]⟩
      · exact .inr (by rw [mem_singleton.1 hi])
    · obtain ⟨rfl, rfl⟩ := record.inj hrecord
      exact ⟨mem_append_right _ mem_cons_self, rfl⟩
  next index code hpoint =>
    have herror := hclean (by simp [hpoint]) (by simp [hpoint])
    obtain ⟨hmem, hcode⟩ := hw.record index code hpoint
    split at hadvance
    next hfails =>
      cases hadvance
      have houtcome : w.outcome.fail index code =
          { w.outcome with firstError := some (index, code) } := by
        rw [fail, herror]
      rw [houtcome]
      exact
        { executed := refl _
          mono := le_rfl
          next := .inr (.inl le_rfl)
          active := hactive
          once := fun i => by simp [BatchWorker.claims, hpoint]
          failures := fun i hi _ => by
            by_cases heq : index = i
            · subst heq
              exact .inr (.inr (by rw [hcode]))
            · exact .inl ⟨hi, by simp [hpoint, heq], by simp [herror]⟩
          worker :=
            { record := by simp
              failed := fun i c heq => by
                cases heq
                exact ⟨hmem, hcode, hfails, .inl rfl⟩
              raised := by simp
              exhausted := by simp }
          keeps := fun _ => by simp
          stop := .inl
          canceled := .inl }
    next hcompleted =>
      cases hadvance
      refine .clean hactive herror herror (by simp) rfl
        (refl _) le_rfl (.inr (.inl le_rfl))
        (by simp [BatchWorker.claims, hpoint])
          (fun i hi hfails => .inl ⟨hi, fun heq => ?_⟩) (by simp)
        (by simp) .inl
      rw [hpoint] at heq
      obtain ⟨rfl, rfl⟩ := record.inj heq
      exact hcompleted hfails
  next hpoint =>
    cases hadvance
    have herror := hw.raised hpoint
    exact
      { executed := refl _
        mono := le_rfl
        next := .inr (.inl le_rfl)
        active := hactive
        once := fun i => by simp [BatchWorker.claims, hpoint]
        failures := fun i hi _ => by
          by_cases heq : w.outcome.firstError = some (i, job.task i)
          · exact .inr (.inr heq)
          · exact .inl ⟨hi, by simp [hpoint], heq⟩
        worker :=
          { record := by simp
            failed := fun i c heq =>
              ⟨(hw.failed i c heq).1, (hw.failed i c heq).2.1, (hw.failed i c heq).2.2.1, .inr rfl⟩
            raised := by simp
            exhausted := fun _ hnone => absurd hnone herror }
        keeps := id
        stop := fun _ => .inr herror
        canceled := .inl }
  · cases hadvance

lemma FoldInv.step (job : FoldJob) (s : FoldState) (k : Nat) (s' : FoldState)
    (hi : FoldInv job s) (hstep : job.step s k = some s') : FoldInv job s' := by
  obtain ⟨pre, w, post, w', s₁, hworkers, hadvance, rfl⟩ := step_cases hstep
  have hmem : w ∈ s.workers := by rw [hworkers]; simp
  have hmove := advance_step hi hmem hadvance
  have hworker : WorkerInv job { s₁ with workers := pre ++ w' :: post } w' :=
    hmove.worker.mono (refl _) le_rfl
  exact hi.replace hworkers { hmove with worker := hworker } rfl

/-! ## The end of the fold -/

/-- The steps that a worker has left until it claims again. -/
def BatchPoint.rank : BatchPoint → Nat
  | .check => 3
  | .claim => 2
  | .run _ => 5
  | .record _ _ => 4
  | .raise => 1
  | .done => 0

/-- The steps that all workers have left: four for each chunk ahead of the counter. -/
def FoldState.rank (job : FoldJob) (s : FoldState) : Nat :=
  (s.workers.map fun w => w.point.rank).sum + 4 * (job.numChunks - s.nextChunk)

lemma FoldJob.advance_rank (hi : FoldInv job s) (hadvance : job.advance s w = some (w', s₁)) :
    w'.point.rank + 4 * (job.numChunks - s₁.nextChunk) <
      w.point.rank + 4 * (job.numChunks - s.nextChunk) := by
  unfold advance at hadvance
  split at hadvance
  next hpoint =>
    split at hadvance
    all_goals
      cases hadvance
      simp [hpoint, rank]
  next hpoint =>
    dsimp only at hadvance
    rw [hi.nextChunk_succ] at hadvance
    split at hadvance
    all_goals
      cases hadvance
      simp only [hpoint, rank]
      omega
  next hpoint =>
    cases hadvance
    simp [hpoint, rank]
  next hpoint =>
    split at hadvance
    all_goals
      cases hadvance
      simp [hpoint, rank]
  next hpoint =>
    cases hadvance
    simp [hpoint, rank]
  · cases hadvance

lemma FoldInv.rank_lt (job : FoldJob) (s : FoldState) (k : Nat) (s' : FoldState)
    (hi : FoldInv job s) (hstep : job.step s k = some s') : s'.rank job < s.rank job := by
  obtain ⟨pre, w, post, w', s₁, hworkers, hadvance, rfl⟩ := step_cases hstep
  have hlt := advance_rank hi hadvance
  unfold FoldState.rank
  rw [hworkers]
  simp only [map_append, map_cons, sum_append, sum_cons]
  omega

lemma FoldJob.advance_none (hnone : job.advance s w = none) : w.point = .done := by
  unfold advance at hnone
  split at hnone
  · split at hnone <;> cases hnone
  · dsimp only at hnone
    split at hnone <;> cases hnone
  · cases hnone
  · split at hnone <;> cases hnone
  · cases hnone
  · assumption

lemma FoldJob.halted_done (hhalted : Halted job.step s) : ∀ w ∈ s.workers, w.point = .done := by
  intro w hw
  obtain ⟨k, hk, hget⟩ := getElem_of_mem hw
  have hnone := hhalted k
  unfold step at hnone
  rw [getElem?_eq_getElem hk, hget] at hnone
  cases hadvance : job.advance s w with
  | none => exact advance_none hadvance
  | some r => simp [hadvance] at hnone

section Merge

variable (merged outcome : BatchOutcome)

lemma BatchOutcome.fail_firstError (i : Nat) (c : Int) :
    (merged.fail i c).firstError = some (i, c) ∧ (∀ j d, merged.firstError = some (j, d) → i ≤ j) ∨
    ∃ j d, merged.firstError = some (j, d) ∧ (merged.fail i c).firstError = some (j, d) ∧
      j ≤ i := by
  unfold fail
  cases herror : merged.firstError with
  | none => exact .inl ⟨rfl, by simp⟩
  | some e =>
    obtain ⟨j, d⟩ := e
    by_cases hlt : i < j
    · dsimp only
      rw [if_pos hlt]
      refine .inl ⟨rfl, fun j' d' heq => ?_⟩
      cases heq
      exact le_of_lt hlt
    · dsimp only
      rw [if_neg hlt]
      exact .inr ⟨j, d, rfl, herror, not_lt.1 hlt⟩

lemma BatchOutcome.fail_canceled (i : Nat) (c : Int) :
    (merged.fail i c).externallyCanceled = merged.externallyCanceled := by
  unfold fail
  split
  · rfl
  · split <;> rfl

lemma BatchOutcome.absorb_spec : (∀ i c, (merged.absorb outcome).firstError = some (i, c) →
      merged.firstError = some (i, c) ∨ outcome.firstError = some (i, c)) ∧
    (∀ j d, merged.firstError = some (j, d) ∨ outcome.firstError = some (j, d) →
      ∃ i c, (merged.absorb outcome).firstError = some (i, c) ∧ i ≤ j) ∧
    (merged.absorb outcome).externallyCanceled =
      (merged.externallyCanceled || outcome.externallyCanceled) := by
  unfold absorb
  cases hoff : outcome.firstError with
  | none =>
    refine ⟨fun i c => .inl, fun j d hcase => ?_, rfl⟩
    exact ⟨j, d, hcase.resolve_right (by simp), Nat.le_refl j⟩
  | some e =>
    obtain ⟨i, c⟩ := e
    generalize hm : ({ merged with externallyCanceled := merged.externallyCanceled ||
      outcome.externallyCanceled } : BatchOutcome) = m
    have hfirst : m.firstError = merged.firstError := by rw [← hm]
    refine ⟨?_, ?_, by rw [fail_canceled, ← hm]⟩
    · intro i' c' heq
      rcases m.fail_firstError i c with ⟨hnew, -⟩ | ⟨j, d, hold, hkept, -⟩
      · exact .inr (hnew.symm.trans heq)
      · exact .inl (hfirst.symm.trans (hold.trans (hkept.symm.trans heq)))
    · intro j d hcase
      rw [← hfirst] at hcase
      rcases m.fail_firstError i c with ⟨hnew, hle⟩ | ⟨j', d', hold, hkept, hle⟩
      · refine ⟨i, c, hnew, ?_⟩
        rcases hcase with hcase | hcase
        · exact hle j d hcase
        · exact le_of_eq (Prod.mk.inj (some.inj hcase)).1
      · refine ⟨j', d', hkept, ?_⟩
        rcases hcase with hcase | hcase
        · exact le_of_eq (Prod.mk.inj (some.inj (hold.symm.trans hcase))).1
        · exact (Prod.mk.inj (some.inj hcase)).1 ▸ hle

end Merge

lemma mergeOutcomes_spec (main : BatchOutcome) (pending : List BatchOutcome) :
    (∀ i c, (mergeOutcomes main pending).firstError = some (i, c) →
      ∃ o ∈ main :: pending, o.firstError = some (i, c)) ∧
    (∀ o ∈ main :: pending, ∀ j d, o.firstError = some (j, d) →
      ∃ i c, (mergeOutcomes main pending).firstError = some (i, c) ∧ i ≤ j) ∧
    ((mergeOutcomes main pending).externallyCanceled = true →
      ∃ o ∈ main :: pending, o.externallyCanceled = true) := by
  induction pending generalizing main with
  | nil =>
    refine ⟨fun i c heq => ⟨main, mem_cons_self, heq⟩, fun o ho j d heq => ?_,
      fun hcanceled => ⟨main, mem_cons_self, hcanceled⟩⟩
    rw [mem_singleton.1 ho] at heq
    exact ⟨j, d, heq, Nat.le_refl j⟩
  | cons outcome rest ih =>
    obtain ⟨hsome, hle, hcanceled⟩ := main.absorb_spec outcome
    obtain ⟨ihsome, ihle, ihcanceled⟩ := ih (main.absorb outcome)
    refine ⟨?_, ?_, ?_⟩
    · intro i c heq
      obtain ⟨o, ho, herror⟩ := ihsome i c heq
      rcases mem_cons.1 ho with rfl | ho
      · exact (hsome i c herror).elim (fun h => ⟨main, by simp, h⟩) fun h => ⟨outcome, by simp, h⟩
      · exact ⟨o, by simp [ho], herror⟩
    · have habsorbed (j : Nat) (d : Int)
          (h : main.firstError = some (j, d) ∨ outcome.firstError = some (j, d)) :
          ∃ i c, (foldl absorb (main.absorb outcome) rest).firstError =
            some (i, c) ∧ i ≤ j := by
        obtain ⟨i, c, hnew, hij⟩ := hle j d h
        obtain ⟨i', c', hfinal, hi'⟩ := ihle _ mem_cons_self i c hnew
        exact ⟨i', c', hfinal, le_trans hi' hij⟩
      refine forall_mem_cons.2 ⟨fun j d h => habsorbed j d (.inl h), forall_mem_cons.2 ⟨?_, ?_⟩⟩
      · exact fun j d h => habsorbed j d (.inr h)
      · exact (forall_mem_cons.1 ihle).2
    · intro hfinal
      obtain ⟨o, ho, hcancel⟩ := ihcanceled hfinal
      rcases mem_cons.1 ho with rfl | ho
      · rw [hcanceled, Bool.or_eq_true] at hcancel
        exact hcancel.elim (fun h => ⟨main, by simp, h⟩) fun h => ⟨outcome, by simp, h⟩
      · exact ⟨o, by simp [ho], hcancel⟩

end Step

/-! ## The answer -/

/-- The answer that does not depend on the schedule: the code of the first failing chunk, after all
chunks before it. -/
structure FoldAnswer (job : FoldJob) (r : FoldResult) : Prop where
  nodup : r.executed.Nodup
  completed : (∀ i < job.numChunks, job.task i = 0) →
    r.code = 0 ∧ ∀ i < job.numChunks, r.executed.count i = 1
  failed : ∀ i < job.numChunks, job.task i ≠ 0 → (∀ j < i, job.task j = 0) →
    r.code = job.task i ∧ ∀ j < i, r.executed.count j = 1

section Answer

variable {job : FoldJob} {s : FoldState} {submitted : Nat} {r : FoldResult}

attribute [local simp] BatchWorker.start

variable (hstop : ∀ v, job.stopFlag = some v → v = 0)

include hstop in
lemma FoldInv.start (hwidth : submitted < 64) : FoldInv job (job.start submitted) where
  nonempty := by simp [FoldJob.start]
  width := by
    unfold FoldJob.start
    rw [length_replicate]
    exact hwidth
  next := Nat.zero_le _
  once i := by
    simp [FoldJob.start, BatchWorker.claims]
  failures i hi := by cases hi
  workers w hw := by
    rw [eq_of_mem_replicate hw]
    exact ⟨by simp, by simp, by simp,
      by simp⟩
  stop hrequested := by
    unfold FoldJob.start stopRequested at hrequested
    cases hflag : job.stopFlag with
    | none => simp [hflag] at hrequested
    | some v => simp [hflag, hstop v hflag] at hrequested
  canceled w hw hcanceled := by
    rw [eq_of_mem_replicate hw] at hcanceled
    cases hcanceled

section

variable (hi : FoldInv job s)
include hi

lemma FoldInv.nodup : s.executed.Nodup := by
  rw [nodup_iff_count_le_one]
  intro i
  have := hi.once i
  split at this
  · omega
  · omega

variable (hdone : ∀ w ∈ s.workers, w.point = .done)
include hdone

/-- When all workers are done the executed chunks are those below the counter. -/
lemma FoldInv.count_of_done (i : Nat) :
    s.executed.count i = if i < s.nextChunk ∧ i < job.numChunks then 1 else 0 := by
  have hclaims : s.workers.countP (BatchWorker.claims i) = 0 := by
    rw [countP_eq_zero]
    intro w hw
    simp [BatchWorker.claims, hdone w hw]
  rw [← hi.once i, hclaims, Nat.add_zero]

/-- The failures that done workers report are those of chunks below the counter. -/
lemma FoldInv.failed_of_done {w : BatchWorker} (hw : w ∈ s.workers) {j : Nat} {c : Int}
    (herror : w.outcome.firstError = some (j, c)) :
    j < s.nextChunk ∧ j < job.numChunks ∧ c = job.task j ∧ c ≠ 0 := by
  obtain ⟨hmem, hcode, hfails, -⟩ := (hi.workers w hw).failed j c herror
  have hcount := hi.count_of_done hdone j
  have hpos := count_pos_iff.2 hmem
  split at hcount
  next hlt => exact ⟨hlt.1, hlt.2, hcode, hfails⟩
  next => omega

/-- At the end the workers are out of chunks, or a chunk below the counter has failed. -/
lemma FoldInv.end_cases : job.numChunks ≤ s.nextChunk ∨
      ∃ j, job.task j ≠ 0 ∧ j < s.nextChunk ∧ j < job.numChunks := by
  have hfailure : (∃ w ∈ s.workers, w.outcome.firstError ≠ none) →
      ∃ j, job.task j ≠ 0 ∧ j < s.nextChunk ∧ j < job.numChunks := by
    intro ⟨w, hw, herror⟩
    obtain ⟨⟨j, c⟩, herror⟩ := ne_none_iff_exists'.1 herror
    obtain ⟨hnext, hlt, rfl, hfails⟩ := hi.failed_of_done hdone hw herror
    exact ⟨j, hfails, hnext, hlt⟩
  obtain ⟨w, hw⟩ := exists_mem_of_ne_nil _ hi.nonempty
  by_cases herror : w.outcome.firstError = none
  · cases hcanceled : w.outcome.externallyCanceled with
    | false => exact .inl ((hi.workers w hw).exhausted (hdone w hw) herror hcanceled)
    | true => exact .inr (hfailure (hi.canceled w hw hcanceled))
  · exact .inr (hfailure ⟨w, hw, herror⟩)

lemma FoldInv.answer : FoldAnswer job (job.finish (job.width - 1) s) := by
  obtain ⟨main, pending, hworkers⟩ := exists_cons_of_ne_nil hi.nonempty
  have hfinish : job.finish (job.width - 1) s =
      match (mergeOutcomes main.outcome (pending.map BatchWorker.outcome)).firstError with
      | some (_, code) => ⟨s.executed, s.stopFlag.map fun _ => 1, code⟩
      | none => ⟨s.executed, s.stopFlag,
          if (mergeOutcomes main.outcome (pending.map BatchWorker.outcome)).externallyCanceled
          then workCanceled else workCompleted⟩ := by
    unfold FoldJob.finish
    simp [hworkers, map_cons]
  obtain ⟨hsome, hle, hcanceled⟩ :=
    mergeOutcomes_spec main.outcome (pending.map BatchWorker.outcome)
  generalize mergeOutcomes main.outcome (pending.map BatchWorker.outcome) = merged at *
  have houtcomes (o : BatchOutcome) : o ∈ main.outcome :: pending.map BatchWorker.outcome ↔
        ∃ w ∈ s.workers, w.outcome = o := by
    rw [← map_cons, ← hworkers, List.mem_map]
  have hexecuted : (job.finish (job.width - 1) s).executed = s.executed := by
    rw [hfinish]
    split <;> rfl
  refine ⟨hexecuted ▸ hi.nodup, ?_, ?_⟩
  · intro hall
    -- without failing chunks no worker fails or is stopped
    have hclean : ∀ w ∈ s.workers, w.outcome.firstError = none := by
      intro w hw
      by_contra herror
      obtain ⟨⟨j, c⟩, herror⟩ := ne_none_iff_exists'.1 herror
      obtain ⟨-, hlt, rfl, hfails⟩ := hi.failed_of_done hdone hw herror
      exact hfails (hall j hlt)
    have hnone : merged.firstError = none := by
      by_contra herror
      obtain ⟨⟨j, c⟩, herror⟩ := ne_none_iff_exists'.1 herror
      obtain ⟨o, ho, herror⟩ := hsome j c herror
      obtain ⟨w, hw, rfl⟩ := (houtcomes o).1 ho
      rw [hclean w hw] at herror
      cases herror
    have hrunning : merged.externallyCanceled = false := by
      by_contra hcancel
      obtain ⟨o, ho, hcancel⟩ := hcanceled (by simpa using hcancel)
      obtain ⟨w, hw, rfl⟩ := (houtcomes o).1 ho
      obtain ⟨w', hw', herror⟩ := hi.canceled w hw hcancel
      exact herror (hclean w' hw')
    refine ⟨?_, ?_⟩
    · rw [hfinish, hnone, hrunning]
      rfl
    intro i hlt
    have hend : job.numChunks ≤ s.nextChunk := by
      rcases hi.end_cases hdone with hend | ⟨j, hfails, -, hj⟩
      · exact hend
      · exact absurd (hall j hj) hfails
    rw [hexecuted, hi.count_of_done hdone, if_pos ⟨lt_of_lt_of_le hlt hend, hlt⟩]
  · intro i hlt hfails hfirst
    -- the counter has passed the first failing chunk
    have hnext : i < s.nextChunk := by
      rcases hi.end_cases hdone with hend | ⟨j, hj, hjnext, -⟩
      · exact lt_of_lt_of_le hlt hend
      · have hij : i ≤ j := not_lt.1 fun hji => hj (hfirst j hji)
        exact lt_of_le_of_lt hij hjnext
    have hmem : i ∈ s.executed := by
      rw [← count_pos_iff, hi.count_of_done hdone, if_pos ⟨hnext, hlt⟩]
      exact Nat.one_pos
    have hreported : ∃ w ∈ s.workers, w.outcome.firstError = some (i, job.task i) := by
      obtain ⟨w, hw, hrecord | herror⟩ := hi.failures i hmem hfails
      · rw [hdone w hw] at hrecord
        cases hrecord
      · exact ⟨w, hw, herror⟩
    obtain ⟨w, hw, herror⟩ := hreported
    obtain ⟨i', c', hmerged, hle'⟩ := hle w.outcome ((houtcomes _).2 ⟨w, hw, rfl⟩) i _ herror
    obtain ⟨o, ho, herror'⟩ := hsome i' c' hmerged
    obtain ⟨w', hw', rfl⟩ := (houtcomes o).1 ho
    obtain ⟨-, -, rfl, hfails'⟩ := hi.failed_of_done hdone hw' herror'
    -- a smaller failing chunk would not be the first
    have hieq : i' = i := by
      refine le_antisymm hle' (not_lt.1 fun hlt' => ?_)
      exact hfails' (hfirst i' hlt')
    refine ⟨?_, ?_⟩
    · rw [hfinish, hmerged, hieq]
    · intro j hj
      have hjlt : j < s.nextChunk ∧ j < job.numChunks := ⟨by omega, by omega⟩
      rw [hexecuted, hi.count_of_done hdone, if_pos hjlt]

end

include hstop in
/-- The calling thread alone runs the chunks in order up to the first that fails. -/
lemma FoldJob.runInline_spec (indices : List Nat) (executed : List Nat) :
    ∃ ran, ran <+: indices ∧ (job.runInline indices job.stopFlag executed).executed =
        executed ++ ran ∧ (((∀ i ∈ indices, job.task i = 0) ∧ ran = indices ∧
          (job.runInline indices job.stopFlag executed).code = 0) ∨
        ∃ before i, ran = before ++ [i] ∧ (∀ j ∈ before, job.task j = 0) ∧ job.task i ≠ 0 ∧
          (job.runInline indices job.stopFlag executed).code = job.task i) := by
  have hquiet : stopRequested job.stopFlag = false := by
    unfold stopRequested
    cases hflag : job.stopFlag with
    | none => rfl
    | some v => simp [hstop v hflag]
  induction indices generalizing executed with
  | nil => exact ⟨[], nil_prefix, by simp [runInline], .inl ⟨by simp, rfl, rfl⟩⟩
  | cons i rest ih =>
    by_cases hcode : job.task i = 0
    · obtain ⟨ran, hran, hexecuted, hcase⟩ := ih (executed ++ [i])
      have hstep : job.runInline (i :: rest) job.stopFlag executed =
          job.runInline rest job.stopFlag (executed ++ [i]) := by
        rw [runInline]
        simp [hquiet, hcode]
      rw [hstep]
      refine ⟨i :: ran, cons_prefix_cons.2 ⟨rfl, hran⟩, by simp [hexecuted], ?_⟩
      rcases hcase with ⟨hall, rfl, hzero⟩ | ⟨before, k, rfl, hbefore, hfails, hk⟩
      · exact .inl ⟨by simpa [hcode] using hall, rfl, hzero⟩
      · exact .inr ⟨i :: before, k, rfl, by simpa [hcode] using hbefore, hfails, hk⟩
    · have hstep : job.runInline (i :: rest) job.stopFlag executed =
          ⟨executed ++ [i], job.stopFlag.map fun _ => 1, job.task i⟩ := by
        rw [runInline]
        simp [hquiet, hcode]
      rw [hstep]
      exact ⟨[i], by simp, rfl, .inr ⟨[], i, rfl, by simp, hcode, rfl⟩⟩

include hstop in
lemma FoldJob.runInline_answer :
    FoldAnswer job (job.runInline (range job.numChunks) job.stopFlag []) := by
  obtain ⟨ran, hprefix, hexecuted, hcase⟩ :=
    runInline_spec hstop (range job.numChunks) []
  rw [nil_append] at hexecuted
  have hnodup : ran.Nodup := hprefix.sublist.nodup nodup_range
  refine ⟨hexecuted ▸ hnodup, ?_, ?_⟩
  · intro hall
    rcases hcase with ⟨-, rfl, hcode⟩ | ⟨before, k, rfl, -, hfails, -⟩
    · refine ⟨hcode, fun i hi => ?_⟩
      rw [hexecuted]
      exact count_eq_one_of_mem hnodup (mem_range.2 hi)
    · have hk : k ∈ range job.numChunks := hprefix.subset (by simp)
      exact absurd (hall k (mem_range.1 hk)) hfails
  · intro i hi hfails hfirst
    rcases hcase with ⟨hall, -, -⟩ | ⟨before, k, rfl, hbefore, hkfails, hcode⟩
    · exact absurd (hall i (mem_range.2 hi)) hfails
    · -- the chunks before the last one that ran are exactly those of smaller index
      have htake : before ++ [k] = range (before.length + 1) := by
        have hlen : before.length + 1 ≤ job.numChunks := by
          simpa using hprefix.length_le
        have := prefix_iff_eq_take.1 hprefix
        rwa [length_append, length_singleton, take_range, Nat.min_eq_left hlen] at this
      rw [range_succ] at htake
      obtain ⟨hbeforeEq, hkEq⟩ := append_inj' htake rfl
      obtain rfl : k = before.length := singleton_inj.1 hkEq
      have hmem (j : Nat) : j ∈ before ↔ j < before.length := by
        rw [← mem_range, ← hbeforeEq]
      have hieq : before.length = i := by
        rcases Nat.lt_trichotomy before.length i with hlt | heq | hgt
        · exact absurd (hfirst _ hlt) hkfails
        · exact heq
        · exact absurd (hbefore i ((hmem i).2 hgt)) hfails
      refine ⟨hieq ▸ hcode, fun j hj => ?_⟩
      rw [hexecuted]
      exact count_eq_one_of_mem hnodup (mem_append_left _ ((hmem j).2 (hieq ▸ hj)))

lemma FoldJob.width_le (job : FoldJob) : job.width ≤ 64 :=
  le_trans (Nat.min_le_left _ _) (Nat.min_le_right _ _)

lemma FoldJob.width_sub_lt (job : FoldJob) : job.width - 1 < 64 :=
  lt_of_le_of_lt (Nat.sub_le_sub_right job.width_le 1) (by decide)

open FoldInv

include hstop in
lemma FoldInv.run {schedule : List Nat}
    (hrun : runSchedule job.step schedule (job.start (job.width - 1)) = some s) : FoldInv job s :=
  runSchedule_invariant (step job) (start hstop job.width_sub_lt) hrun

lemma FoldInv.ends (hi : FoldInv job s) : ∃ more s', runSchedule job.step more s = some s' ∧
    ∀ w ∈ s'.workers, w.point = .done := by
  obtain ⟨more, s', hmore, hhalted⟩ :=
    exists_runSchedule_halted (step job) (rank_lt job) hi
  exact ⟨more, s', hmore, FoldJob.halted_done hhalted⟩

include hstop in
lemma FoldJob.exists_run : ∃ r, job.Run (job.width - 1) r := by
  by_cases hn : job.numChunks = 0
  · exact ⟨_, .empty hn⟩
  by_cases hw : job.width ≤ 1 ∨ job.numChunks = 1
  · exact ⟨_, .inline hn hw⟩
  · obtain ⟨schedule, s, hrun, hdone⟩ := (FoldInv.start hstop job.width_sub_lt).ends
    exact ⟨_, .parallel hn hw hrun hdone⟩

include hstop in
lemma FoldJob.Run.answer (hr : job.Run (job.width - 1) r) : FoldAnswer job r := by
  cases hr with
  | empty hn =>
    refine ⟨nodup_nil, fun _ => ⟨rfl, ?_⟩, ?_⟩
    · omega
    · omega
  | inline hn hw => exact runInline_answer hstop
  | parallel hn hw hrun hdone => exact (run hstop hrun).answer hdone

lemma FoldJob.Run.refused (hsubmitted : submitted < job.width - 1)
    (hr : job.Run submitted r) : r.code = workFailed := by
  have hwidth : job.width ≤ job.numChunks := Nat.min_le_right _ _
  cases hr with
  | empty hn => omega
  | inline hn hw => omega
  | parallel hn hw hrun hdone =>
    unfold finish
    split
    · rfl
    · rw [if_pos hsubmitted]

end Answer

/-- A fold whose submissions are all accepted and whose stop flag nobody else raises has one
answer. Whatever the schedule of its workers, no chunk is run twice, the workers come to an end
after a bounded number of steps, and the result is the code of the first failing chunk. -/
theorem parallelFold_answer (job : FoldJob) (hstop : ∀ v, job.stopFlag = some v → v = 0) :
    (∀ schedule s, runSchedule job.step schedule (job.start (job.width - 1)) = some s →
      s.executed.Nodup ∧ schedule.length ≤ 4 * job.numChunks + 3 * max job.width 1 ∧
        ∃ more s', runSchedule job.step more s = some s' ∧ ∀ w ∈ s'.workers, w.point = .done) ∧
      (∃ r, job.Run (job.width - 1) r) ∧ ∀ r, job.Run (job.width - 1) r → FoldAnswer job r := by
  refine ⟨?_, ?_, ?_⟩
  · intro schedule s hrun
    have hi := FoldInv.run hstop hrun
    refine ⟨hi.nodup, ?_, hi.ends⟩
    refine (runSchedule_length_le (FoldInv.step job) (FoldInv.rank_lt job)
      (FoldInv.start hstop job.width_sub_lt) hrun).trans ?_
    simp only [FoldState.rank, FoldJob.start, map_replicate, sum_replicate_nat,
      BatchWorker.start, BatchPoint.rank]
    omega
  · exact FoldJob.exists_run hstop
  · intro r hr
    exact hr.answer hstop

/-- Two workers on three chunks of which the last two fail. -/
theorem parallelFold_answer_twoFailures :
    ∃ r, FoldJob.Run ⟨3, fun i => i, 2, some 0, by decide⟩ 1 r ∧ r.code = 1 ∧
      r.executed.count 0 = 1 := by
  obtain ⟨-, ⟨r, hr⟩, hanswer⟩ :=
    parallelFold_answer ⟨3, fun i => i, 2, some 0, by decide⟩ (by simp)
  have hfirst := (hanswer r hr).failed 1 (by decide) (by decide) (by simp)
  exact ⟨r, hr, hfirst.1, hfirst.2 0 (by decide)⟩

end Arandu.Runtime
