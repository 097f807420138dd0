import Mathlib.Algebra.Group.Nat.Defs
import Arandu.Library.Ledger
import Arandu.Library.Schedule

/-!
# Spawned coroutines

`rt_runtime/spawn.rs`: a table of coroutines. `join` claims a pending coroutine, drives and frees it
outside the lock and stores the result; `cancel` frees a pending one, or asks the join that drives
it to give the slot back. Slots are reused, so a stale handle may name another coroutine.

The critical sections of a call, its driving and its freeing are separate steps. A coroutine is
owned by its slot until some call takes it, and by that call ever after.
-/

namespace Arandu.Runtime

open Arandu.Library List Option

/-! ## The table and the calls -/

inductive TaskState where
  | pending
  | running (cancelRequested : Bool)
  | completed (result : Int)
deriving DecidableEq, Repr

/-- An occupied slot. Blobs are numbered as they are accepted; the source keeps the pointer only
while the task is pending. -/
structure SpawnedTask where
  blob : Nat
  state : TaskState
deriving DecidableEq, Repr

/-- How far a call is. -/
inductive TaskCall where
  /-- `join_on` has claimed the blob and is about to drive it -/
  | claimed (index blob : Nat)
  /-- it is about to free the blob -/
  | driven (index blob : Nat) (result : Int)
  /-- it is about to store the result -/
  | released (index blob : Nat) (result : Int)
  | joined (blob : Nat) (result : Int)
  /-- `join_on` has returned the result it found -/
  | cached (blob : Nat) (result : Int)
  /-- `cancel_on` is about to free the blob -/
  | retiring (blob : Nat)
  /-- `cancel_on` has freed the blob -/
  | cancelled (blob : Nat)
  /-- `cancel_on` has released the slot of a completed task -/
  | dismissed (blob : Nat)
  /-- `cancel_on` has left the request with the join that drives the blob -/
  | requested (blob : Nat)
  /-- `cancel_on` has found no task -/
  | missed
deriving DecidableEq, Repr

structure SpawnState where
  tasks : List (Option SpawnedTask)
  calls : List TaskCall
  /-- the number of blobs accepted -/
  spawned : Nat
  /-- the blobs that were freed, in order -/
  freed : List Nat
deriving DecidableEq, Repr

/-- `TASKS` before the first call. -/
def SpawnState.new : SpawnState := ⟨[], [], 0, []⟩

namespace SpawnState

variable (s : SpawnState)

/-- The index behind a handle, `usize::try_from(handle)`. -/
def indexOf (handle : Int) : Option Nat := if handle < 0 then none else some handle.toNat

/-- `spawn_on` with a blob that is not null; no result if the handle does not fit. -/
def spawnOn : Option SpawnState :=
  let index := s.tasks.findIdx Option.isNone
  if 2 ^ 63 ≤ index then none
  else
    let task : SpawnedTask := ⟨s.spawned, .pending⟩
    some { s with
      tasks :=
        if index = s.tasks.length then s.tasks ++ [some task] else s.tasks.set index (some task)
      spawned := s.spawned + 1 }

/-- The first critical section of `join_on`; no result if the process is aborted. -/
def joinOn (handle : Int) : Option SpawnState :=
  match indexOf handle with
  | none => none
  | some index =>
    match s.tasks[index]? with
    | some (some task) =>
      match task.state with
      | .completed result => some { s with calls := s.calls ++ [.cached task.blob result] }
      | .running _ => none
      | .pending =>
        some { s with
          tasks := s.tasks.set index (some { task with state := .running false })
          calls := s.calls ++ [.claimed index task.blob] }
    | _ => none

/-- The critical section of `cancel_on`. -/
def cancelOn (handle : Int) : SpawnState :=
  match indexOf handle with
  | none => { s with calls := s.calls ++ [.missed] }
  | some index =>
    match s.tasks[index]? with
    | some (some task) =>
      match task.state with
      | .pending =>
        { s with tasks := s.tasks.set index none, calls := s.calls ++ [.retiring task.blob] }
      | .running _ =>
        { s with
          tasks := s.tasks.set index (some { task with state := .running true })
          calls := s.calls ++ [.requested task.blob] }
      | .completed _ =>
        { s with tasks := s.tasks.set index none, calls := s.calls ++ [.dismissed task.blob] }
    | _ => { s with calls := s.calls ++ [.missed] }

/-- The last critical section of `join_on`; no result if the process is aborted. -/
def storeResult (k index blob : Nat) (result : Int) : Option SpawnState :=
  match s.tasks[index]? with
  | some (some task) =>
    match task.state with
    | .running cancelRequested =>
      some { s with
        tasks := s.tasks.set index
          (if cancelRequested then none else some { task with state := .completed result })
        calls := s.calls.set k (.joined blob result) }
    | _ => none
  | _ => none

/-- A call goes on; `result` is what driving the coroutine returns. -/
def proceed (k : Nat) (result : Int) : Option SpawnState :=
  match s.calls[k]? with
  | some (.claimed index blob) => some { s with calls := s.calls.set k (.driven index blob result) }
  | some (.driven index blob result) =>
    some { s with
      calls := s.calls.set k (.released index blob result)
      freed := s.freed ++ [blob] }
  | some (.released index blob result) => s.storeResult k index blob result
  | some (.retiring blob) =>
    some { s with calls := s.calls.set k (.cancelled blob), freed := s.freed ++ [blob] }
  | _ => none

end SpawnState

inductive SpawnMove where
  | spawn
  | join (handle : Int)
  | cancel (handle : Int)
  /-- the call with the given number goes on -/
  | proceed (k : Nat) (result : Int)
deriving DecidableEq, Repr

def SpawnState.step (s : SpawnState) : SpawnMove → Option SpawnState
  | .spawn => s.spawnOn
  | .join handle => s.joinOn handle
  | .cancel handle => some (s.cancelOn handle)
  | .proceed k result => s.proceed k result

/-! ## Who owns a blob -/

/-- The blob that waits in a slot. -/
def waitingBlob : Option SpawnedTask → Option Nat
  | some ⟨blob, .pending⟩ => some blob
  | _ => none

namespace TaskCall

/-- The blob that a call took from the table. -/
def owned : TaskCall → Option Nat
  | .claimed _ blob | .driven _ blob _ | .released _ blob _ | .joined blob _ => some blob
  | .retiring blob | .cancelled blob => some blob
  | _ => none

/-- The blob that a call has freed. -/
def hasFreed : TaskCall → Option Nat
  | .released _ blob _ | .joined blob _ | .cancelled blob => some blob
  | _ => none

variable (call : TaskCall) (blob : Nat)

/-- The call has polled the blob to its end. -/
def Polled : Prop :=
  match call with
  | .driven _ b _ | .released _ b _ | .joined b _ => b = blob
  | _ => False

/-- The call has returned the result of the blob. -/
def Delivered (result : Int) : Prop :=
  match call with
  | .joined b r | .cached b r => b = blob ∧ r = result
  | _ => False

/-- The call has joined or cancelled the blob and has returned, unless it left a request with the
join that drives the blob. -/
def Closed : Prop :=
  match call with
  | .joined b _ | .cached b _ | .cancelled b | .dismissed b => b = blob
  | _ => False

/-- The call is the join of the blob. -/
def Joins : Prop :=
  match call with
  | .claimed _ b | .driven _ b _ | .released _ b _ | .joined b _ => b = blob
  | _ => False

/-- The call drives the blob of a slot. -/
def Drives (index blob : Nat) : Prop :=
  match call with
  | .claimed i b | .driven i b _ | .released i b _ => i = index ∧ b = blob
  | _ => False

end TaskCall

open TaskCall

/-- Every blob has one owner, its slot or a call, and every freed blob one call that freed it. -/
structure SpawnInv (s : SpawnState) : Prop where
  ledger : (s.tasks.filterMap waitingBlob ++ s.calls.filterMap owned).Perm (range s.spawned)
  freed : s.freed.Perm (s.calls.filterMap hasFreed)
  /-- a slot is kept for the join that drives its blob -/
  drives : ∀ call ∈ s.calls, ∀ i b : Nat, call.Drives i b →
    ∃ c, s.tasks[i]? = some (some ⟨b, .running c⟩)
  completed : ∀ (i b : Nat) (r : Int), s.tasks[i]? = some (some ⟨b, .completed r⟩) →
    joined b r ∈ s.calls
  cached : ∀ b r, cached b r ∈ s.calls → joined b r ∈ s.calls
  dismissed : ∀ b, dismissed b ∈ s.calls → ∃ r, joined b r ∈ s.calls
  running : ∀ (i b : Nat) (c : Bool), s.tasks[i]? = some (some ⟨b, .running c⟩) →
    ∃ call ∈ s.calls, call.Joins b
  requested : ∀ b, requested b ∈ s.calls → ∃ call ∈ s.calls, call.Joins b

variable {call : TaskCall} {k : Nat}

section Inv

variable {s s' : SpawnState}

lemma spawnInv_new : SpawnInv .new where
  ledger := .refl _
  freed := .refl _
  drives call hcall := absurd hcall not_mem_nil
  completed i b r h := by cases h
  cached b r h := absurd h not_mem_nil
  dismissed b h := absurd h not_mem_nil
  running i b c h := by cases h
  requested b h := absurd h not_mem_nil

variable (h : SpawnInv s)
include h

/-- A new call that took nothing from the table. -/
lemma SpawnInv.enter (howned : call.owned = none) (hfreed : call.hasFreed = none)
    (hdrives : ∀ i b, ¬ call.Drives i b)
    (hcached : ∀ b r, call = .cached b r → joined b r ∈ s.calls)
    (hdismissed : ∀ b, call = .dismissed b → ∃ r, joined b r ∈ s.calls)
    (hrequested : ∀ b, call = .requested b → ∃ c ∈ s.calls, c.Joins b) :
    SpawnInv { s with calls := s.calls ++ [call] } where
  ledger := by
    rw [filterMap_append_none howned]
    exact h.ledger
  freed := by
    rw [filterMap_append_none hfreed]
    exact h.freed
  drives c hc i b hd := by
    rcases mem_concat.1 hc with hc | rfl
    · exact h.drives c hc i b hd
    · exact absurd hd (hdrives i b)
  completed i b r hi := mem_append_left _ (h.completed i b r hi)
  cached b r hc := by
    apply mem_append_left
    rcases mem_concat.1 hc with hc | hc
    · exact h.cached b r hc
    · exact hcached b r hc.symm
  dismissed b hc := by
    have hex : ∃ r, joined b r ∈ s.calls := by
      rcases mem_concat.1 hc with hc | hc
      · exact h.dismissed b hc
      · exact hdismissed b hc.symm
    exact hex.imp fun r hr => mem_append_left _ hr
  running i b c hi := by
    obtain ⟨c', hc', hjoins⟩ := h.running i b c hi
    exact ⟨c', mem_append_left _ hc', hjoins⟩
  requested b hc := by
    have hex : ∃ c ∈ s.calls, c.Joins b := by
      rcases mem_concat.1 hc with hc | hc
      · exact h.requested b hc
      · exact hrequested b hc.symm
    obtain ⟨c', hc', hjoins⟩ := hex
    exact ⟨c', mem_append_left _ hc', hjoins⟩

variable {slot : Option SpawnedTask} {b : Nat}

/-- The slot of a driven blob is another one than a slot in a different state. -/
lemma SpawnInv.drives_ne (hcall : call ∈ s.calls) {i j : Nat} (hd : call.Drives i b)
    (hj : s.tasks[j]? = some slot)
    (hslot : ∀ b c, slot ≠ some ⟨b, .running c⟩) : j ≠ i := by
  rintro rfl
  obtain ⟨c, hc⟩ := h.drives call hcall j b hd
  exact hslot b c (some.inj (hj.symm.trans hc))

lemma SpawnInv.place {tasks : List (Option SpawnedTask)}
    (hgain : (tasks.filterMap waitingBlob).Perm (s.spawned :: s.tasks.filterMap waitingBlob))
    (hold : ∀ (i : Nat) (task : SpawnedTask), s.tasks[i]? = some (some task) →
      tasks[i]? = some (some task))
    (hnew : ∀ (i : Nat) (task : SpawnedTask), tasks[i]? = some (some task) →
      s.tasks[i]? = some (some task) ∨ task.state = .pending) :
    SpawnInv { s with tasks := tasks, spawned := s.spawned + 1 } where
  ledger := by
    rw [range_succ]
    calc Perm _ (s.spawned :: s.tasks.filterMap waitingBlob ++ _) := hgain.append_right _
      Perm _ (s.spawned :: range s.spawned) := h.ledger.cons _
      Perm _ (range s.spawned ++ [s.spawned]) := (perm_append_singleton _ _).symm
  freed := h.freed
  drives call hcall i b hd := (h.drives call hcall i b hd).imp fun _ hc => hold i _ hc
  completed i b r hi := h.completed i b r ((hnew i _ hi).resolve_right nofun)
  cached := h.cached
  dismissed := h.dismissed
  running i b c hi := h.running i b c ((hnew i _ hi).resolve_right nofun)
  requested := h.requested

lemma SpawnInv.spawnOn (hs : s.spawnOn = some s') : SpawnInv s' := by
  unfold SpawnState.spawnOn at hs
  dsimp only at hs
  split at hs
  · cases hs
  cases hs
  apply h.place
  · split
    next =>
      rw [filterMap_append]
      exact perm_append_singleton _ _
    next hend =>
      -- the first free slot
      have hlt := Nat.lt_of_le_of_ne findIdx_le_length hend
      refine filterMap_set_gain (y := none) ?_ rfl rfl
      rw [getElem?_eq_getElem hlt]
      exact congrArg some (isNone_iff_eq_none.1 findIdx_getElem)
  · intro i task hi
    split
    next => exact getElem?_concat_old hi
    next hend =>
      have hlt := Nat.lt_of_le_of_ne findIdx_le_length hend
      refine (getElem?_set_ne ?_).trans hi
      rintro rfl
      rw [getElem?_eq_getElem hlt] at hi
      have hnone := findIdx_getElem (p := Option.isNone) (w := hlt)
      rw [some.inj hi] at hnone
      cases hnone
  · intro i task hi
    split at hi
    next =>
      rcases getElem?_concat_cases hi with hi | ⟨-, heq⟩
      · exact .inl hi
      · exact .inr (by rw [← some.inj heq])
    next =>
      rcases getElem?_set_cases hi with ⟨-, heq⟩ | ⟨-, hi⟩
      · exact .inr (by rw [← some.inj heq])
      · exact .inl hi

variable {index : Nat}

lemma SpawnInv.reslot {old new : Option SpawnedTask}
    (hold : s.tasks[index]? = some old) (hwaiting : waitingBlob new = waitingBlob old)
    (hdrives : ∀ call ∈ s.calls, ∀ b, call.Drives index b → ∃ c, new = some ⟨b, .running c⟩)
    (hcompleted : ∀ b r, new = some ⟨b, .completed r⟩ → joined b r ∈ s.calls)
    (hrunning : ∀ b c, new = some ⟨b, .running c⟩ → ∃ call ∈ s.calls, call.Joins b) :
    SpawnInv { s with tasks := s.tasks.set index new } where
  ledger := ((filterMap_set_keep hold hwaiting).append_right _).trans h.ledger
  freed := h.freed
  drives call hcall i b hd := by
    by_cases hi : index = i
    · subst hi
      obtain ⟨c, rfl⟩ := hdrives call hcall b hd
      exact ⟨c, getElem?_set_at hold⟩
    · exact (h.drives call hcall i b hd).imp fun c hc => (getElem?_set_ne hi).trans hc
  completed i b r hi := by
    rcases getElem?_set_cases hi with ⟨-, hnew⟩ | ⟨-, hi⟩
    · exact hcompleted b r hnew
    · exact h.completed i b r hi
  cached := h.cached
  dismissed := h.dismissed
  running i b c hi := by
    rcases getElem?_set_cases hi with ⟨-, hnew⟩ | ⟨-, hi⟩
    · exact hrunning b c hnew
    · exact h.running i b c hi
  requested := h.requested

section

variable (hk : s.calls[k]? = some call)
include hk

variable {call' : TaskCall}

lemma SpawnInv.advance {freed : List Nat} (howned : call'.owned = call.owned)
    (hdrives : ∀ i b, call'.Drives i b → call.Drives i b)
    (hjoins : ∀ b, call.Joins b → call'.Joins b) (hjoined : ∀ b r, call ≠ .joined b r)
    (hcached : ∀ b r, call' ≠ .cached b r) (hdismissed : ∀ b, call' ≠ .dismissed b)
    (hrequested : ∀ b, call' ≠ .requested b)
    (hfreed : freed.Perm ((s.calls.set k call').filterMap hasFreed)) :
    SpawnInv { s with calls := s.calls.set k call', freed := freed } := by
  have hkept (b : Nat) (r : Int) (hmem : joined b r ∈ s.calls) :
      joined b r ∈ s.calls.set k call' := by
    obtain ⟨j, hj⟩ := mem_iff_getElem?.1 hmem
    refine mem_set_of_ne ?_ hj
    rintro rfl
    exact hjoined b r (some.inj (hk.symm.trans hj))
  have hkeeps (b : Nat) (hex : ∃ c ∈ s.calls, c.Joins b) :
      ∃ c ∈ s.calls.set k call', c.Joins b := by
    obtain ⟨c, hc, hb⟩ := hex
    obtain ⟨j, hj⟩ := mem_iff_getElem?.1 hc
    by_cases hjk : k = j
    · subst hjk
      cases hk.symm.trans hj
      exact ⟨call', mem_of_getElem? (getElem?_set_at hk), hjoins b hb⟩
    · exact ⟨c, mem_set_of_ne hjk hj, hb⟩
  refine ⟨((filterMap_set_keep hk howned).append_left _).trans h.ledger, hfreed, ?_, ?_, ?_, ?_,
    fun i b c hi => hkeeps b (h.running i b c hi), ?_⟩
  · intro c hc i b hd
    rcases mem_or_eq_of_mem_set hc with hc | rfl
    · exact h.drives c hc i b hd
    · exact h.drives call (mem_of_getElem? hk) i b (hdrives i b hd)
  · exact fun i b r hi => hkept b r (h.completed i b r hi)
  · intro b r hc
    rcases mem_or_eq_of_mem_set hc with hc | hc
    · exact hkept b r (h.cached b r hc)
    · exact absurd hc.symm (hcached b r)
  · intro b hc
    rcases mem_or_eq_of_mem_set hc with hc | hc
    · exact (h.dismissed b hc).imp fun r hr => hkept b r hr
    · exact absurd hc.symm (hdismissed b)
  · intro b hc
    rcases mem_or_eq_of_mem_set hc with hc | hc
    · exact hkeeps b (h.requested b hc)
    · exact absurd hc.symm (hrequested b)

lemma SpawnInv.freed_keep (hsame : call'.hasFreed = call.hasFreed) :
    s.freed.Perm ((s.calls.set k call').filterMap hasFreed) :=
  h.freed.trans (filterMap_set_keep hk hsame).symm

lemma SpawnInv.freed_gain {b : Nat} (hbefore : call.hasFreed = none)
    (hafter : call'.hasFreed = some b) :
    (s.freed ++ [b]).Perm ((s.calls.set k call').filterMap hasFreed) :=
  (perm_append_singleton _ _).trans
    ((h.freed.cons b).trans (filterMap_set_gain hk hbefore hafter).symm)

end

lemma SpawnInv.take
    (hold : s.tasks[index]? = some (some ⟨b, .pending⟩)) (hwaiting : waitingBlob slot = none)
    (hcompleted : ∀ b r, slot ≠ some ⟨b, .completed r⟩) (howned : call.owned = some b)
    (hfreed : call.hasFreed = none)
    (hdrives : ∀ i b', call.Drives i b' → i = index ∧ ∃ c, slot = some ⟨b', .running c⟩)
    (hrunning : ∀ b' c, slot = some ⟨b', .running c⟩ → call.Joins b') :
    SpawnInv { s with tasks := s.tasks.set index slot, calls := s.calls ++ [call] } where
  ledger := by
    have hlose := filterMap_set_lose (f := waitingBlob) hold rfl hwaiting
    rw [filterMap_append_some howned, ← append_assoc]
    calc Perm _ (b :: ((s.tasks.set index slot).filterMap waitingBlob ++ _)) :=
        perm_append_singleton _ _
      Perm _ (s.tasks.filterMap waitingBlob ++ _) := hlose.append_right _
      Perm _ (range s.spawned) := h.ledger
  freed := by
    rw [filterMap_append_none hfreed]
    exact h.freed
  drives c hc i b' hd := by
    rcases mem_concat.1 hc with hc | rfl
    · obtain ⟨c', hc'⟩ := h.drives c hc i b' hd
      exact ⟨c', (getElem?_set_ne (h.drives_ne hc hd hold fun _ _ => nofun)).trans hc'⟩
    · obtain ⟨rfl, c', rfl⟩ := hdrives i b' hd
      exact ⟨c', getElem?_set_at hold⟩
  completed i b' r hi := by
    apply mem_append_left
    rcases getElem?_set_cases hi with ⟨-, hnew⟩ | ⟨-, hi⟩
    · exact absurd hnew (hcompleted b' r)
    · exact h.completed i b' r hi
  cached b' r hc := by
    apply mem_append_left
    rcases mem_concat.1 hc with hc | rfl
    · exact h.cached b' r hc
    · cases howned
  dismissed b' hc := by
    rcases mem_concat.1 hc with hc | rfl
    · exact (h.dismissed b' hc).imp fun r hr => mem_append_left _ hr
    · cases howned
  running i b' c hi := by
    rcases getElem?_set_cases hi with ⟨-, hnew⟩ | ⟨-, hi⟩
    · exact ⟨call, by simp, hrunning b' c hnew⟩
    · obtain ⟨c', hc', hjoins⟩ := h.running i b' c hi
      exact ⟨c', mem_append_left _ hc', hjoins⟩
  requested b' hc := by
    rcases mem_concat.1 hc with hc | rfl
    · obtain ⟨c', hc', hjoins⟩ := h.requested b' hc
      exact ⟨c', mem_append_left _ hc', hjoins⟩
    · cases howned

lemma SpawnInv.joinOn {handle : Int} (hs : s.joinOn handle = some s') : SpawnInv s' := by
  unfold SpawnState.joinOn at hs
  split at hs
  · cases hs
  next index _ =>
    split at hs
    next task hi =>
      obtain ⟨b, state⟩ := task
      cases state with
      | completed r =>
        cases hs
        refine h.enter rfl rfl (fun _ _ => id) ?_ (fun _ => nofun) (fun _ => nofun)
        rintro b' r' ⟨⟩
        exact h.completed index b r hi
      | running c => cases hs
      | pending =>
        cases hs
        refine h.take hi rfl (fun _ _ => nofun) rfl rfl ?_ ?_
        · rintro i b' ⟨rfl, rfl⟩
          exact ⟨rfl, false, rfl⟩
        · rintro b' c ⟨⟩
          exact rfl
    next => cases hs

lemma SpawnInv.cancelOn (handle : Int) : SpawnInv (s.cancelOn handle) := by
  have hmissed : SpawnInv { s with calls := s.calls ++ [.missed] } :=
    h.enter rfl rfl (fun _ _ => id) (fun _ _ => nofun) (fun _ => nofun) (fun _ => nofun)
  unfold SpawnState.cancelOn
  split
  · exact hmissed
  next index _ =>
    split
    next task hi =>
      obtain ⟨b, state⟩ := task
      cases state with
      | pending =>
        exact h.take hi rfl (fun _ _ => nofun) rfl rfl (fun _ _ => False.elim) (fun _ _ => nofun)
      | running c =>
        -- the blob stays with the join that drives it
        have hjoins := h.running index b c hi
        have hmarked :
            SpawnInv { s with tasks := s.tasks.set index (some ⟨b, .running true⟩) } := by
          refine h.reslot hi rfl ?_ (fun _ _ => nofun) ?_
          · intro call hcall b' hd
            obtain ⟨c', hc'⟩ := h.drives call hcall index b' hd
            cases some.inj (hi.symm.trans hc')
            exact ⟨true, rfl⟩
          · rintro b' c' ⟨⟩
            exact hjoins
        refine hmarked.enter rfl rfl (fun _ _ => id) (fun _ _ => nofun) (fun _ => nofun) ?_
        rintro b' ⟨⟩
        exact hjoins
      | completed r =>
        have hemptied : SpawnInv { s with tasks := s.tasks.set index none } := by
          refine h.reslot hi rfl ?_ (fun _ _ => nofun) (fun _ _ => nofun)
          intro call hcall b' hd
          exact absurd rfl (h.drives_ne hcall hd hi fun _ _ => nofun)
        refine hemptied.enter rfl rfl (fun _ _ => id) (fun _ _ => nofun) ?_ (fun _ => nofun)
        rintro b' ⟨⟩
        exact ⟨r, h.completed index b r hi⟩
    next => exact hmissed

/-- The call that stores the result is the only one that drives the slot. -/
lemma SpawnInv.storeResult {r : Int}
    (hk : s.calls[k]? = some (.released index b r)) (hs : s.storeResult k index b r = some s') :
    SpawnInv s' := by
  have hnodup : (s.calls.filterMap owned).Nodup :=
    (nodup_append.1 (h.ledger.nodup_iff.2 nodup_range)).2.1
  have hjoined : SpawnInv { s with calls := s.calls.set k (.joined b r) } :=
    h.advance hk rfl (fun _ _ => False.elim) (fun _ => id) (fun _ _ => nofun) (fun _ _ => nofun)
      (fun _ => nofun) (fun _ => nofun) (h.freed_keep hk rfl)
  have hmem : joined b r ∈ s.calls.set k (.joined b r) :=
    mem_of_getElem? (getElem?_set_at hk)
  unfold SpawnState.storeResult at hs
  split at hs
  next task hi =>
    obtain ⟨c₀, hslot⟩ := h.drives _ (mem_of_getElem? hk) index b ⟨rfl, rfl⟩
    obtain rfl := some.inj (some.inj (hi.symm.trans hslot))
    cases hs
    refine hjoined.reslot hi ?_ ?_ ?_ ?_
    · split <;> rfl
    · intro call hcall b' hd
      -- another call that drives the slot would own the same blob
      obtain ⟨j, hj⟩ := mem_iff_getElem?.1 hcall
      rcases getElem?_set_cases hj with ⟨-, rfl⟩ | ⟨hjk, hj⟩
      · exact False.elim hd
      obtain ⟨c', hc'⟩ := h.drives call (mem_of_getElem? hj) index b' hd
      cases some.inj (hi.symm.trans hc')
      have howned : call.owned = some b := by
        cases call with
        | claimed i b' | driven i b' r' | released i b' r' => exact congrArg some hd.2
        | _ => exact False.elim hd
      exact absurd (holder_unique hnodup hk hj rfl howned) hjk
    · intro b' r' hnew
      split at hnew
      · cases hnew
      · cases hnew
        exact hmem
    · intro b' c' hnew
      split at hnew
      · cases hnew
      · cases hnew
  next => cases hs

lemma SpawnInv.proceed {result : Int} (hs : s.proceed k result = some s') : SpawnInv s' := by
  unfold SpawnState.proceed at hs
  split at hs
  next index b hk =>
    cases hs
    exact h.advance hk rfl (fun _ _ => id) (fun _ => id) (fun _ _ => nofun) (fun _ _ => nofun)
      (fun _ => nofun) (fun _ => nofun) (h.freed_keep hk rfl)
  next index b r hk =>
    cases hs
    exact h.advance hk rfl (fun _ _ => id) (fun _ => id) (fun _ _ => nofun) (fun _ _ => nofun)
      (fun _ => nofun) (fun _ => nofun) (h.freed_gain hk rfl rfl)
  next index b r hk => exact h.storeResult hk hs
  next b hk =>
    cases hs
    exact h.advance hk rfl (fun _ _ => False.elim) (fun _ => id) (fun _ _ => nofun)
      (fun _ _ => nofun) (fun _ => nofun) (fun _ => nofun) (h.freed_gain hk rfl rfl)
  next => cases hs

lemma SpawnInv.step {move : SpawnMove} (hs : s.step move = some s') : SpawnInv s' := by
  cases move with
  | spawn => exact h.spawnOn hs
  | join handle => exact h.joinOn hs
  | cancel handle =>
    cases hs
    exact h.cancelOn handle
  | proceed k result => exact h.proceed hs

end Inv

/-! ## Runs -/

section Runs

variable {s : SpawnState} {b : Nat}

lemma SpawnInv.owner_unique (h : SpawnInv s) {k' : Nat} {call' : TaskCall}
    (hk : s.calls[k]? = some call) (hk' : s.calls[k']? = some call') (hb : call.owned = some b)
    (hb' : call'.owned = some b) : k = k' :=
  holder_unique (nodup_append.1 (h.ledger.nodup_iff.2 nodup_range)).2.1 hk hk' hb hb'

lemma TaskCall.Polled.owned (h : call.Polled b) : call.owned = some b := by
  cases call with
  | driven i b' r | released i b' r | joined b' r => exact congrArg some h
  | _ => exact False.elim h

lemma TaskCall.owned_of_hasFreed (h : call.hasFreed = some b) : call.owned = some b := by
  cases call with
  | released i b' r | joined b' r | cancelled b' => exact h
  | _ => cases h

lemma SpawnInv.freed_nodup (h : SpawnInv s) : s.freed.Nodup := by
  refine h.freed.nodup_iff.2 ?_
  have howned := (nodup_append.1 (h.ledger.nodup_iff.2 nodup_range)).2.1
  -- the calls that have freed a blob are among its owners
  have hsub : (s.calls.filterMap hasFreed).Sublist (s.calls.filterMap owned) := by
    generalize s.calls = calls
    induction calls with
    | nil => exact .refl _
    | cons call calls ih =>
      cases hfreed : call.hasFreed with
      | none =>
        rw [filterMap_cons_none hfreed]
        refine ih.trans ?_
        rw [filterMap_cons]
        split
        · exact .refl _
        · exact sublist_cons_self _ _
      | some b =>
        rw [filterMap_cons_some hfreed, filterMap_cons_some (owned_of_hasFreed hfreed)]
        exact ih.cons_cons b
  exact howned.sublist hsub

lemma SpawnInv.joined_of_delivered (h : SpawnInv s)
    (hcall : call ∈ s.calls) {r : Int} (hd : call.Delivered b r) : joined b r ∈ s.calls := by
  cases call with
  | joined b' r' =>
    obtain ⟨rfl, rfl⟩ := hd
    exact hcall
  | cached b' r' =>
    obtain ⟨rfl, rfl⟩ := hd
    exact h.cached b' r' hcall
  | _ => exact False.elim hd

lemma SpawnInv.freed_of_closed (h : SpawnInv s)
    (hcall : call ∈ s.calls) (hc : call.Closed b) : b ∈ s.freed := by
  have hmem {call : TaskCall} (hcall : call ∈ s.calls) (hfreed : call.hasFreed = some b) :
      b ∈ s.freed := h.freed.mem_iff.2 (mem_filterMap.2 ⟨call, hcall, hfreed⟩)
  cases call with
  | joined b' r | cancelled b' => exact hmem hcall (congrArg some hc)
  | cached b' r =>
    obtain rfl : b' = b := hc
    exact hmem (h.cached b' r hcall) rfl
  | dismissed b' =>
    obtain rfl : b' = b := hc
    obtain ⟨r, hr⟩ := h.dismissed b' hcall
    exact hmem hr rfl
  | _ => exact False.elim hc

/-- In every interleaving a coroutine is polled by one caller at most, all joins that return its
result return the same one, it is freed once at most, and once by the time a join of it, or a cancel
that did not find it driven, has returned. A cancel that finds it driven leaves it to its join. -/
theorem spawned_freed_once {moves : List SpawnMove}
    (hrun : runSchedule SpawnState.step moves .new = some s) (b : Nat) :
    (∀ (k k' : Nat) (call call' : TaskCall), s.calls[k]? = some call → s.calls[k']? = some call' →
      call.Polled b → call'.Polled b → k = k') ∧
    (∀ call ∈ s.calls, ∀ call' ∈ s.calls, ∀ r r', call.Delivered b r → call'.Delivered b r' →
      r = r') ∧ s.freed.count b ≤ 1 ∧ (∀ call ∈ s.calls, call.Closed b → s.freed.count b = 1) ∧
    (requested b ∈ s.calls → ∃ call ∈ s.calls, call.Joins b) := by
  have h : SpawnInv s := runSchedule_invariant (fun _ _ _ h hs => h.step hs) spawnInv_new hrun
  have hnodup := h.freed_nodup
  refine ⟨?_, ?_, nodup_iff_count_le_one.1 hnodup b, ?_, h.requested b⟩
  · intro k k' call call' hk hk' hp hp'
    exact h.owner_unique hk hk' hp.owned hp'.owned
  · intro call hcall call' hcall' r r' hd hd'
    obtain ⟨k, hk⟩ := mem_iff_getElem?.1 (h.joined_of_delivered hcall hd)
    obtain ⟨k', hk'⟩ := mem_iff_getElem?.1 (h.joined_of_delivered hcall' hd')
    obtain rfl := h.owner_unique hk hk' rfl rfl
    cases some.inj (hk.symm.trans hk')
    rfl
  · intro call hcall hc
    exact count_eq_one_of_mem hnodup (h.freed_of_closed hcall hc)

/-- A join that is cancelled while it drives the coroutine. -/
theorem spawned_freed_once_cancelled : ∃ s, runSchedule SpawnState.step
        [.spawn, .join 0, .cancel 0, .proceed 0 7, .proceed 0 0, .proceed 0 0] .new = some s ∧
      joined 0 7 ∈ s.calls ∧ s.freed.count 0 = 1 := by
  refine ⟨_, rfl, by decide, ?_⟩
  have hrun : runSchedule SpawnState.step
      [.spawn, .join 0, .cancel 0, .proceed 0 7, .proceed 0 0, .proceed 0 0] .new = some _ := rfl
  exact (spawned_freed_once hrun 0).2.2.2.1 (.joined 0 7) (by decide) rfl

/-- A completed coroutine delivers its result to every join, and a cancel may return while the
coroutine is still driven. -/
theorem spawned_delivered_twice : (∃ s, runSchedule SpawnState.step
        [.spawn, .join 0, .proceed 0 7, .proceed 0 0, .proceed 0 0, .join 0] .new = some s ∧
      ∃ call call', s.calls[0]? = some call ∧ s.calls[1]? = some call' ∧ call.Delivered 0 7 ∧
        call'.Delivered 0 7) ∧
    ∃ s, runSchedule SpawnState.step [.spawn, .join 0, .cancel 0] .new = some s ∧
      requested 0 ∈ s.calls ∧ s.freed.count 0 = 0 := by
  refine ⟨⟨_, rfl, _, _, rfl, rfl, ⟨rfl, rfl⟩, ⟨rfl, rfl⟩⟩, ⟨_, rfl, by decide, by decide⟩⟩

end Runs

end Arandu.Runtime
