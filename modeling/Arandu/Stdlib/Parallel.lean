import Arandu.Runtime.ParallelFold

/-!
# Folds over chunks of a slice

`std/parallel.aru`: the slice is cut into chunks, the runtime runs the chunk task once on every
chunk, each with a result slot of its own, and the caller combines the slots in order. The runtime
is the fold of `Runtime.ParallelFold`; the order in which it executed the chunks is an argument
here.

A chunk task touches only its own slot, so that one chunk is one step. The buffers are the lists of
chunks and of slots; of the allocator only its answers are kept.
-/

namespace Arandu.Stdlib

open Arandu.Runtime List

variable {T R : Type} {count : Nat} {executed : List Nat} {run : T → R → R} {init : R}

/-! ## Chunk tasks -/

inductive ParallelError where
  | failed (code : Int)
  | canceled
deriving DecidableEq, Repr

def granularityCutoff : Nat := 1024

variable (run)

/-- `run` is the method of the job. -/
def foldSequential : List T → R → R
  | [], acc => acc
  | item :: rest, acc => foldSequential rest (run item acc)

variable (stopFlag : Option Int)

/-- The status, and the result buffer, which is folded in place. -/
def dispatchChunk : List T → R → Int × R
  | [], result => (0, result)
  | item :: rest, result =>
    if stopRequested stopFlag then (2, result)
    else dispatchChunk rest (run item result)

/-- The loop of `dispatchChunkWithInit`; without a result the chunk was canceled. -/
def foldUnlessStopped : List T → R → Option R
  | [], state => some state
  | item :: rest, state =>
    if stopRequested stopFlag then none else foldUnlessStopped rest (run item state)

/-- The result buffer is written at the end. -/
def dispatchChunkWithInit (init : R) (stopFlag : Option Int) (subslice : List T)
    (result : Option R) : Int × Option R :=
  match foldUnlessStopped run stopFlag subslice init with
  | none => (2, result)
  | some state => (0, some state)

/-! ## The partition -/

def chunkCount (totalLen targetChunk maxChunks : Nat) : Nat :=
  let count := 1 + (totalLen - 1) / targetChunk
  let count := if count > maxChunks then maxChunks else count
  if count > totalLen then totalLen else count

/-- The offset and the length of each chunk: all but the last have the same length. -/
def chunkRanges (totalLen count : Nat) : List (Nat × Nat) :=
  let base := totalLen / count
  let finalOffset := (count - 1) * base
  (range (count - 1)).map (fun c => (c * base, base)) ++ [(finalOffset, totalLen - finalOffset)]

variable (data : List T)

def sliceSubslice (range : Nat × Nat) : List T := (data.drop range.1).take range.2

def chunksOf (count : Nat) : List (List T) :=
  (chunkRanges data.length count).map (sliceSubslice data)

/-! ## The folds -/

/-- The sizes and alignments of a context, a result and a pointer, and which of the four allocations
succeed. -/
structure FoldHost where
  contextSize : Nat
  contextAlign : Nat
  resultSize : Nat
  resultAlign : Nat
  pointerSize : Nat
  pointerAlign : Nat
  alloc : Fin 4 → Bool

def maxBuffer : Nat := 2147483647

/-- The buffers for so many chunks cannot be laid out. -/
def FoldHost.rejects (host : FoldHost) (count : Nat) : Bool :=
  host.contextSize == 0 || host.contextAlign == 0 || host.resultSize == 0 ||
    host.resultAlign == 0 || host.pointerSize == 0 || host.pointerAlign == 0 ||
    decide (host.contextSize > maxBuffer / count) || decide (host.resultSize > maxBuffer / count) ||
    decide (host.pointerSize > maxBuffer / count)

def FoldHost.allocates (host : FoldHost) : Bool := decide (∀ i, host.alloc i = true)

/-- A chunk task, on a chunk and a result slot; a slot is empty until it is initialised. -/
abbrev ChunkTask (T R : Type) := List T → Option R → Int × Option R

variable (task : ChunkTask T R) (chunks : List (List T))

def runChunks (executed : List Nat) (slots : List (Option R)) : List (Option R) :=
  executed.foldl (fun slots i => slots.modify i fun slot => (task (chunks.getD i []) slot).2) slots

/-- The final loop; no result when an empty slot is read. -/
def combineSlots (combine : R → R → R) : R → List (Option R) → Option R
  | acc, [] => some acc
  | _, none :: _ => none
  | acc, some part :: rest => combineSlots combine (combine acc part) rest

variable (slot : Option R)

/-- From the allocation of the buffers on. The chunk task, the content of a fresh slot and the
answer of the runtime are arguments. -/
def foldChunks (combine : R → R → R)
    (chunks : List (List T)) (seed : R) (host : FoldHost) (runtime : FoldResult) :
    Option (Except ParallelError R) :=
  if host.rejects chunks.length then some (.error (.failed (-3)))
  else if host.allocates = false then some (.error (.failed (-4)))
  else if runtime.code ≠ 0 then
    some (.error (if runtime.code = 2 then .canceled else .failed runtime.code))
  else
    (combineSlots combine seed
      (runChunks task chunks runtime.executed (replicate chunks.length slot))).map .ok

/-- The chunk task of `parallelFoldWithGrain`. -/
def grainTask : ChunkTask T R := fun chunk slot =>
  match slot with
  | none => (0, none)
  | some result =>
    let (status, result) := dispatchChunk run none chunk result
    (status, some result)

def parallelFoldWithGrain (seed identity : R) (run : T → R → R)
    (combine : R → R → R) (targetChunkSize maxChunks : Nat) (host : FoldHost)
    (runtime : FoldResult) : Option (Except ParallelError R) :=
  if data.length = 0 then some (.ok seed)
  else if targetChunkSize = 0 ∨ maxChunks = 0 then some (.error (.failed (-3)))
  else if data.length ≤ granularityCutoff then some (.ok (foldSequential run data seed))
  else
    foldChunks (grainTask run) (some identity) combine
      (chunksOf data (chunkCount data.length targetChunkSize maxChunks)) seed host runtime

def parallelFoldWithInit (seed init : R) (run : T → R → R)
    (combine : R → R → R) (host : FoldHost) (runtime : FoldResult) :
    Option (Except ParallelError R) :=
  if data.length = 0 then some (.ok seed)
  else if data.length ≤ granularityCutoff then some (.ok (foldSequential run data seed))
  else
    foldChunks (dispatchChunkWithInit run init none) none combine
      (chunksOf data (chunkCount data.length 64 1024)) seed host runtime

/-- The job that is given to the runtime. -/
def chunkJob (chunks : List (List T)) (workers : Nat)
    (fits : chunks.length * 8 < 2 ^ 63) : FoldJob :=
  ⟨chunks.length, fun i => (task (chunks.getD i []) slot).1, workers, none, fits⟩

/-! ## The partition is exact -/

lemma flatMap_windows (base n : Nat) :
    (range n).flatMap (fun c => range' (c * base) base) = range (n * base) := by
  induction n with
  | zero => simp
  | succ n ih =>
    rw [range_succ, flatMap_append, ih, flatMap_singleton, Nat.succ_mul,
      range_eq_range', range_eq_range', ← range'_append_1, Nat.zero_add]

lemma finalOffset_le (totalLen count : Nat) : (count - 1) * (totalLen / count) ≤ totalLen :=
  le_trans (Nat.mul_le_mul_right _ (Nat.sub_le count 1)) (Nat.mul_div_le totalLen count)

lemma chunkRanges_tile (totalLen count : Nat) :
    (chunkRanges totalLen count).flatMap (fun r => range' r.1 r.2) = range totalLen := by
  simp only [chunkRanges, flatMap_append, flatMap_map, flatMap_singleton]
  rw [flatMap_windows]
  have hsum := Nat.add_sub_cancel' (finalOffset_le totalLen count)
  conv_rhs => rw [← hsum]
  rw [range_eq_range', range_eq_range', ← range'_append_1, Nat.zero_add]

lemma flatten_windows (base n : Nat) :
    ((range n).map fun c => sliceSubslice data (c * base, base)).flatten =
      data.take (n * base) := by
  induction n with
  | zero => simp
  | succ n ih =>
    rw [range_succ, map_append, flatten_append, ih, Nat.succ_mul, take_add]
    simp [sliceSubslice]

lemma chunksOf_flatten (count : Nat) : (chunksOf data count).flatten = data := by
  have hfinal : sliceSubslice data ((count - 1) * (data.length / count),
      data.length - (count - 1) * (data.length / count)) =
        data.drop ((count - 1) * (data.length / count)) := by
    rw [sliceSubslice, take_of_length_le]
    rw [length_drop]
  rw [chunksOf, chunkRanges, map_append, map_map, flatten_append]
  simp only [map_cons, map_nil, flatten_cons, flatten_nil, append_nil]
  rw [hfinal]
  have hwindows := flatten_windows data (data.length / count) (count - 1)
  exact hwindows ▸ take_append_drop _ _

lemma length_chunksOf (hcount : count ≠ 0) : (chunksOf data count).length = count := by
  simp only [chunksOf, chunkRanges, length_map, length_append, length_range, length_singleton]
  omega

/-! ## Every slot is folded once -/

lemma dispatchChunk_none (chunk : List T) (result : R) :
    dispatchChunk run none chunk result = (0, foldSequential run chunk result) := by
  induction chunk generalizing result with
  | nil => rfl
  | cons item rest ih =>
    simpa [dispatchChunk, stopRequested, foldSequential] using ih (run item result)

lemma foldUnlessStopped_none (chunk : List T) (state : R) :
    foldUnlessStopped run none chunk state = some (foldSequential run chunk state) := by
  induction chunk generalizing state with
  | nil => rfl
  | cons item rest ih =>
    simpa [foldUnlessStopped, stopRequested, foldSequential] using ih (run item state)

/-- The task folds a chunk from `init` when it finds the slot as it was made. -/
def FoldsFrom (run : T → R → R) (init : R) : Prop :=
  ∀ chunk, task chunk slot = (0, some (foldSequential run chunk init))

lemma grainTask_folds (identity : R) :
    FoldsFrom (grainTask run) (some identity) run identity := fun chunk => by
  simp [grainTask, dispatchChunk_none]

lemma initTask_folds (init : R) :
    FoldsFrom (dispatchChunkWithInit run init none) none run init := fun chunk => by
  simp [dispatchChunkWithInit, foldUnlessStopped_none]

variable {run}

/-- Each chunk that is executed once changes its own slot alone. -/
lemma getElem?_runChunks (hnodup : executed.Nodup) (slots : List (Option R)) (i : Nat) :
    (runChunks task chunks executed slots)[i]? =
      if i ∈ executed then slots[i]?.map fun slot => (task (chunks.getD i []) slot).2
      else slots[i]? := by
  induction executed generalizing slots with
  | nil => simp [runChunks]
  | cons j rest ih =>
    obtain ⟨hj, hrest⟩ := nodup_cons.1 hnodup
    have hstep := ih hrest (slots.modify j fun slot => (task (chunks.getD j []) slot).2)
    refine hstep.trans ?_
    by_cases hij : j = i
    · subst hij
      simp [hj]
    · simp [hij, Ne.symm hij]

lemma runChunks_all {task : ChunkTask T R} {slot : Option R}
    (htask : FoldsFrom task slot run init) (chunks : List (List T))
    (hnodup : executed.Nodup) (hall : ∀ i < chunks.length, i ∈ executed) :
    runChunks task chunks executed (replicate chunks.length slot) =
      chunks.map fun chunk => some (foldSequential run chunk init) := by
  apply ext_getElem?
  intro i
  rw [getElem?_runChunks task chunks hnodup, getElem?_replicate]
  rcases Nat.lt_or_ge i chunks.length with hlt | hge
  · rw [if_pos (hall i hlt), if_pos hlt, Option.map_some, htask]
    simp [hlt]
  · simp [not_lt.2 hge]

lemma combineSlots_some (combine : R → R → R) (parts : List R) (acc : R) :
    combineSlots combine acc (parts.map some) = some (parts.foldl combine acc) := by
  induction parts generalizing acc with
  | nil => rfl
  | cons part rest ih => simpa [combineSlots] using ih (combine acc part)

/-! ## What a fold returns -/

/-- The folds of the chunks, combined in order from the seed. -/
def orderedCombination (run : T → R → R) (combine : R → R → R) (init : R) (chunks : List (List T))
    (seed : R) : R :=
  (chunks.map fun chunk => foldSequential run chunk init).foldl combine seed

lemma foldSequential_append (run : T → R → R) (xs ys : List T) (acc : R) :
    foldSequential run (xs ++ ys) acc = foldSequential run ys (foldSequential run xs acc) := by
  induction xs generalizing acc with
  | nil => rfl
  | cons x xs ih => exact ih (run x acc)

/-- Combination with a fold from the identity continues the fold. -/
lemma orderedCombination_flatten {combine : R → R → R}
    (hcombine : ∀ acc xs, combine acc (foldSequential run xs init) = foldSequential run xs acc)
    (chunks : List (List T)) (seed : R) :
    orderedCombination run combine init chunks seed = foldSequential run chunks.flatten seed := by
  induction chunks generalizing seed with
  | nil => rfl
  | cons chunk rest ih =>
    rw [flatten_cons, foldSequential_append, ← ih, ← hcombine seed chunk]
    rfl

def poolTasks (workers count : Nat) : Nat :=
  min (min (max workers 1) maxParallelWorkers) count - 1

/-- What is promised about the result of a fold that succeeds when `reached` holds. -/
structure FoldsInOrder (data : List T) (run : T → R → R) (combine : R → R → R) (init seed : R)
    (count : Nat) (reached : Prop) (out : Option (Except ParallelError R)) : Prop where
  /-- no empty slot is read -/
  returns : ∃ result, out = some result
  succeeds : (∃ v, out = some (.ok v)) ↔ reached
  /-- neither the number of workers nor the schedule is mentioned -/
  value : ∀ v, out = some (.ok v) → v =
    if data.length ≤ granularityCutoff then foldSequential run data seed
    else orderedCombination run combine init (chunksOf data count) seed
  sequential : (∀ a, combine a init = a ∧ combine init a = a) →
    (∀ acc xs, combine acc (foldSequential run xs init) = foldSequential run xs acc) →
    ∀ v, out = some (.ok v) → v = foldSequential run data seed

section Runtime

variable {task : ChunkTask T R} {slot : Option R} {run : T → R → R} {combine : R → R → R}
  {init seed : R} {chunks : List (List T)} {host : FoldHost} {runtime : FoldResult}
  {workers submitted : Nat} {data : List T}

/-- The runtime succeeds exactly when the pool accepts all tasks, and has then executed every chunk
once. -/
lemma chunkJob_run (htask : FoldsFrom task slot run init) {fits : chunks.length * 8 < 2 ^ 63}
    (hsubmitted : submitted ≤ poolTasks workers chunks.length)
    (hrun : (chunkJob task slot chunks workers fits).Run submitted runtime) :
    (runtime.code = 0 ↔ submitted = poolTasks workers chunks.length) ∧ (runtime.code = 0 →
        runtime.executed.Nodup ∧ ∀ i < chunks.length, i ∈ runtime.executed) := by
  rcases Nat.lt_or_eq_of_le hsubmitted with hlt | rfl
  · have hcode := hrun.refused hlt
    simp [hcode, workFailed, Nat.ne_of_lt hlt]
  · have hanswer := FoldJob.Run.answer (by simp [chunkJob]) hrun
    obtain ⟨hcode, hcount⟩ := hanswer.completed fun i _ => by simp [chunkJob, htask _]
    refine ⟨by simp [hcode], fun _ => ⟨hanswer.nodup, fun i hi => ?_⟩⟩
    exact count_pos_iff.1 (by rw [hcount i hi]; exact Nat.one_pos)

lemma exists_runtime (task : ChunkTask T R) (slot : Option R) (chunks : List (List T))
    (workers : Nat) : ∃ runtime, ∀ fits, (chunkJob task slot chunks workers fits).Run
      (poolTasks workers chunks.length) runtime := by
  by_cases fits : chunks.length * 8 < 2 ^ 63
  · have hstop : ∀ v, (chunkJob task slot chunks workers fits).stopFlag = some v → v = 0 := nofun
    obtain ⟨runtime, hrun⟩ := FoldJob.exists_run hstop
    exact ⟨runtime, fun _ => hrun⟩
  · exact ⟨⟨[], none, 0⟩, fun h => absurd h fits⟩

lemma FoldHost.fits_of_not_rejects (h : host.rejects count = false) : count * 8 < 2 ^ 63 := by
  simp only [FoldHost.rejects, Bool.or_eq_false_iff, beq_eq_false_iff_ne, decide_eq_false_iff_not,
    not_lt] at h
  obtain ⟨⟨⟨⟨⟨-, hpointer⟩, -⟩, -⟩, -⟩, hle⟩ := h
  -- a pointer has at least one byte
  have hcount : 1 ≤ maxBuffer / count := le_trans (Nat.one_le_iff_ne_zero.2 hpointer) hle
  have hpos : 0 < count := Nat.pos_of_ne_zero fun hzero => by simp [hzero] at hcount
  have hmax : count ≤ maxBuffer := by simpa using (Nat.le_div_iff_mul_le hpos).1 hcount
  unfold maxBuffer at hmax
  omega

/-- From the allocation of the buffers on, a fold returns the ordered combination or an error. -/
lemma foldChunks_spec (htask : FoldsFrom task slot run init)
    (hsubmitted : submitted ≤ poolTasks workers chunks.length)
    (hruntime : ∀ fits, (chunkJob task slot chunks workers fits).Run submitted runtime) :
    (∃ result, foldChunks task slot combine chunks seed host runtime = some result) ∧
    ∀ v, foldChunks task slot combine chunks seed host runtime = some (.ok v) ↔
      (host.rejects chunks.length = false ∧ host.allocates = true ∧
        submitted = poolTasks workers chunks.length) ∧
      v = orderedCombination run combine init chunks seed := by
  unfold foldChunks
  by_cases hrejects : host.rejects chunks.length = true
  · simp [hrejects]
  by_cases halloc : host.allocates = false
  · simp [hrejects, halloc]
  rw [Bool.not_eq_true] at hrejects
  obtain ⟨hcode, hall⟩ :=
    chunkJob_run htask hsubmitted (hruntime (FoldHost.fits_of_not_rejects hrejects))
  by_cases hzero : runtime.code = 0
  · obtain ⟨hnodup, hmem⟩ := hall hzero
    have hslots := runChunks_all htask chunks hnodup hmem
    have hparts : (chunks.map fun chunk => some (foldSequential run chunk init)) =
        (chunks.map fun chunk => foldSequential run chunk init).map some := by simp
    rw [hslots, hparts, combineSlots_some]
    simp [hrejects, halloc, hzero, hcode.1 hzero, orderedCombination, eq_comm]
  · have hne : submitted ≠ poolTasks workers chunks.length := fun h => hzero (hcode.2 h)
    simp [hrejects, halloc, hzero, hne]

lemma FoldsInOrder.of_foldChunks (hcount : count ≠ 0)
    (hlong : ¬ data.length ≤ granularityCutoff) (htask : FoldsFrom task slot run init)
    (hsubmitted : submitted ≤ poolTasks workers count)
    (hruntime : ∀ fits, (chunkJob task slot (chunksOf data count) workers fits).Run submitted
      runtime) : FoldsInOrder data run combine init seed count
      (host.rejects count = false ∧ host.allocates = true ∧ submitted = poolTasks workers count)
      (foldChunks task slot combine (chunksOf data count) seed host runtime) := by
  have hlength := length_chunksOf data hcount
  rw [← hlength] at hsubmitted
  obtain ⟨hreturns, hok⟩ := foldChunks_spec htask hsubmitted hruntime
  rw [hlength] at hok
  refine ⟨hreturns, ?_, fun v hv => ?_, fun _ hcombine v hv => ?_⟩
  · simp [hok]
  · rw [if_neg hlong]
    exact ((hok v).1 hv).2
  · rw [((hok v).1 hv).2, orderedCombination_flatten hcombine, chunksOf_flatten]

lemma FoldsInOrder.of_short {reached : Prop}
    (hshort : data.length ≤ granularityCutoff) (hreached : reached) :
    FoldsInOrder data run combine init seed count reached
      (some (.ok (foldSequential run data seed))) := by
  refine ⟨⟨_, rfl⟩, by simp [hreached], fun v hv => ?_, fun _ _ v hv => ?_⟩
  · rw [if_pos hshort]
    simpa [eq_comm] using hv
  · simpa [eq_comm] using hv

end Runtime

lemma chunkCount_ne_zero {totalLen targetChunk maxChunks : Nat} (htotal : totalLen ≠ 0)
    (hmax : maxChunks ≠ 0) : chunkCount totalLen targetChunk maxChunks ≠ 0 := by
  simp only [chunkCount]
  generalize (totalLen - 1) / targetChunk = pieces
  split_ifs <;> omega

open FoldsInOrder

/-- The chunks of a fold tile the slice. A fold never reads an empty slot, and it succeeds exactly
when the partition bounds are positive and, for a slice above the cutoff, the buffers are allocated
and the pool accepts the tasks. The value is then the sequential fold of a short slice and the
combination in order of the folds of the chunks of a longer one, whatever the number of workers and
the schedule; for a job and a combination that can be regrouped it is the sequential fold. -/
theorem parallelFold_in_order (data : List T) (seed init : R) (run : T → R → R)
    (combine : R → R → R) (host : FoldHost) (workers : Nat) :
    (∀ count, (chunkRanges data.length count).flatMap (fun r => range' r.1 r.2) =
      range data.length) ∧ (∀ (targetChunkSize maxChunks submitted : Nat) (runtime : FoldResult),
      submitted ≤ poolTasks workers (chunkCount data.length targetChunkSize maxChunks) →
      (∀ fits, (chunkJob (grainTask run) (some init)
        (chunksOf data (chunkCount data.length targetChunkSize maxChunks)) workers fits).Run
          submitted runtime) →
      FoldsInOrder data run combine init seed (chunkCount data.length targetChunkSize maxChunks)
        (data = [] ∨ targetChunkSize ≠ 0 ∧ maxChunks ≠ 0 ∧ (data.length ≤ granularityCutoff ∨
          host.rejects (chunkCount data.length targetChunkSize maxChunks) = false ∧
          host.allocates = true ∧
          submitted = poolTasks workers (chunkCount data.length targetChunkSize maxChunks)))
        (parallelFoldWithGrain data seed init run combine targetChunkSize maxChunks host runtime)) ∧
    (∀ (submitted : Nat) (runtime : FoldResult),
      submitted ≤ poolTasks workers (chunkCount data.length 64 1024) →
      (∀ fits, (chunkJob (dispatchChunkWithInit run init none) none
        (chunksOf data (chunkCount data.length 64 1024)) workers fits).Run submitted runtime) →
      FoldsInOrder data run combine init seed (chunkCount data.length 64 1024)
        (data.length ≤ granularityCutoff ∨
          host.rejects (chunkCount data.length 64 1024) = false ∧ host.allocates = true ∧
          submitted = poolTasks workers (chunkCount data.length 64 1024))
        (parallelFoldWithInit data seed init run combine host runtime)) := by
  refine ⟨chunkRanges_tile data.length, ?_, ?_⟩
  · intro targetChunkSize maxChunks submitted runtime hsubmitted hruntime
    unfold parallelFoldWithGrain
    by_cases hempty : data.length = 0
    · obtain rfl := length_eq_zero_iff.1 hempty
      exact of_short (Nat.zero_le _) (.inl rfl)
    have hne : data ≠ [] := fun h => hempty (h ▸ rfl)
    by_cases hbounds : targetChunkSize = 0 ∨ maxChunks = 0
    · rw [if_neg hempty, if_pos hbounds]
      refine ⟨⟨_, rfl⟩, ?_, by simp, by simp⟩
      simp only [Option.some.injEq, reduceCtorEq, exists_false, false_iff, not_or, not_and]
      exact ⟨hne, fun htarget hmax => absurd hbounds (by simp [htarget, hmax])⟩
    obtain ⟨htarget, hmax⟩ := not_or.1 hbounds
    rw [if_neg hempty, if_neg hbounds]
    by_cases hshort : data.length ≤ granularityCutoff
    · rw [if_pos hshort]
      exact .of_short hshort (.inr ⟨htarget, hmax, .inl hshort⟩)
    · simpa [hne, htarget, hmax, hshort] using of_foldChunks
        (chunkCount_ne_zero hempty hmax) hshort (grainTask_folds run init) hsubmitted hruntime
  · intro submitted runtime hsubmitted hruntime
    unfold parallelFoldWithInit
    by_cases hempty : data.length = 0
    · obtain rfl := length_eq_zero_iff.1 hempty
      exact of_short (Nat.zero_le _) (.inl (Nat.zero_le _))
    rw [if_neg hempty]
    by_cases hshort : data.length ≤ granularityCutoff
    · rw [if_pos hshort]
      exact .of_short hshort (.inl hshort)
    · simpa [hshort] using of_foldChunks (chunkCount_ne_zero hempty (by decide)) hshort
        (initTask_folds run init) hsubmitted hruntime

/-- A slice just above the cutoff, summed by four workers. -/
theorem parallelFold_in_order_sum :
    ∃ runtime, parallelFoldWithInit (replicate 1025 1) 0 0 (· + ·) (· + ·)
      ⟨32, 8, 8, 8, 8, 8, fun _ => true⟩ runtime = some (.ok 1025) := by
  have hsum : ∀ (xs : List Nat) (acc : Nat), foldSequential (· + ·) xs acc = acc + xs.sum := by
    intro xs
    induction xs with
    | nil => exact fun acc => rfl
    | cons x xs ih => exact fun acc => by rw [foldSequential, ih, sum_cons]; omega
  have hcount : chunkCount (replicate 1025 1).length 64 1024 = 17 := by
    rw [length_replicate]
    decide
  obtain ⟨runtime, hrun⟩ := exists_runtime (dispatchChunkWithInit (· + ·) 0 none) none
    (chunksOf (replicate 1025 1) (chunkCount (replicate 1025 1).length 64 1024)) 4
  have hne : chunkCount (replicate 1025 1).length 64 1024 ≠ 0 := by
    rw [hcount]
    decide
  have hlength := length_chunksOf (replicate 1025 1) hne
  have hfold := (parallelFold_in_order (replicate 1025 1) 0 0 (· + ·) (· + ·)
    ⟨32, 8, 8, 8, 8, 8, fun _ => true⟩ 4).2.2 _ runtime (by rw [hlength]) hrun
  obtain ⟨v, hv⟩ := hfold.succeeds.2 (.inr ⟨by rw [hcount]; decide, by decide, by rw [hlength]⟩)
  have hvalue := hfold.sequential (by simp) (fun acc xs => by simp [hsum]) v hv
  have htotal : v = 1025 := by rw [hvalue, hsum, sum_replicate_nat]
  rw [htotal] at hv
  exact ⟨runtime, hv⟩

/-- A slice at or below the cutoff is folded from the seed, and its fold is never combined; a chunk
size of zero is an error. -/
theorem parallelFold_short_not_combined : (∀ host runtime,
      parallelFoldWithGrain [1] 0 0 (· + ·) (fun _ _ => 0) 64 1024 host runtime = some (.ok 1)) ∧
    (∀ chunks, chunks.flatten = [1] → orderedCombination (· + ·) (fun _ _ => 0) 0 chunks 0 ≠ 1) ∧
    ∀ host runtime, parallelFoldWithGrain [1] 0 0 (· + ·) (· + ·) 0 1024 host runtime =
      some (.error (.failed (-3))) := by
  refine ⟨fun _ _ => rfl, fun chunks _ => ?_, fun _ _ => rfl⟩
  have hzero : ∀ parts : List Nat, parts.foldl (fun _ _ => 0) 0 = 0 := by
    intro parts
    induction parts with
    | nil => rfl
    | cons part rest ih => exact ih
  rw [orderedCombination, hzero]
  decide

end Arandu.Stdlib
