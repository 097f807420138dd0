import Arandu.Library.Table
import Arandu.Runtime.NativeThread

/-!
# Native threads hand over their buffers once

What has happened to the buffers of a task is determined by how far the task is and where its result
is. The join handle of a thread is in its row or in the batch of one call, and the row stays until
that call has settled the result; so no result is settled twice, and a row is missing only before
the row is inserted or after everything is done.
-/

namespace Arandu.Runtime

open Arandu.Library List Function NativeState NativeThread ThreadStage CallPoint

/-! ## What has happened to the buffers -/

def ResultFate.events : ResultFate → List BufferEvent
  | .held => []
  | .returned => [.returned]
  | .destroying => [.destroyed .result]
  | .destroyed => [.destroyed .result, .freed .result]

namespace NativeThread

def history (th : NativeThread) : List BufferEvent :=
  match th.stage with
  | .accepted | .numbered | .running => []
  | .refused => dropTask
  | .returned ok | .published ok | .exited ok =>
    if ok then executeEnd 0 ++ th.fate.events else executeEnd 1

/-- The outcome of the task was given away. -/
def Settled (th : NativeThread) : Prop :=
  th.stage = .exited false ∨ th.stage = .exited true ∧ (th.fate = .returned ∨ th.fate = .destroyed)

end NativeThread

/-! ## The invariant -/

variable {id module : Nat} {rest : List (Nat × Nat)}

namespace NativeState

/-- What holds of a task. -/
structure ThreadOk (s : NativeState) (t : Nat) (th : NativeThread) : Prop where
  events : th.events = th.history
  held : th.stage ≠ .exited true ∨ th.inserted = false → th.fate = .held
  handle_lt : th.handle < s.nextId
  handle_ne : th.stage ≠ .accepted → th.stage ≠ .refused → th.handle ≠ 0
  /-- the row stays until the outcome is settled -/
  inserted : th.inserted = true → th.stage.isStarted = true ∧
    ((∃ row, s.rows th.handle = some row ∧ row.finished = t) ∨ th.Settled)
  /-- whoever calls `spawn` is still there -/
  thread : th.spawning = true → ∀ p, th.caller.thread = some p →
    p < t ∧ ∃ thp, s.threads[p]? = some thp ∧ thp.stage = .running
  within : th.spawning = true → ∀ q, th.caller.within = some q → ∃ c ∈ s.calls, destroys c q = true

def RowOk (s : NativeState) (id : Nat) (row : Running) : Prop :=
  ∃ th, s.threads[row.finished]? = some th ∧ th.handle = id ∧ th.inserted = true ∧
    th.callbacks = row.callbacks ∧ ∀ t, row.thread = some t → t = row.finished ∧ th.fate = .held

/-- What the first thread of a batch has come to. -/
def HeadOk (th : NativeThread) : ClaimPoint → Prop
  | .claimed => th.fate = .held
  | .destroying => th.stage = .exited true ∧ th.fate = .destroying
  | .finishing => th.Settled

/-- What holds of a call: it has the join handles of its batch, which are not in their rows. -/
structure CallOk (s : NativeState) (c : NativeCall) : Prop where
  claims : ∀ id t, (id, t) ∈ c.batch → ∃ row, s.rows id = some row ∧ row.thread = none ∧
    row.finished = t
  nodup : (c.batch.map Prod.snd).Nodup
  idle : (∀ p, c.point ≠ .working p) → c.batch = []
  head : ∀ p id t rest, c.point = .working p → c.batch = (id, t) :: rest →
    ∃ th, s.threads[t]? = some th ∧ HeadOk th p
  rest : ∀ b rest, c.batch = b :: rest → ∀ id t, (id, t) ∈ rest →
    ∃ th, s.threads[t]? = some th ∧ th.fate = .held
  value : ∀ t, c.value = .pointer t → ∃ th, s.threads[t]? = some th ∧ th.fate = .returned

structure Sound (s : NativeState) : Prop where
  next : 0 < s.nextId
  thread : ∀ (t : Nat) (th : NativeThread), s.threads[t]? = some th → s.ThreadOk t th
  row : ∀ id row, s.rows id = some row → s.RowOk id row
  call : ∀ (i : Nat) (c : NativeCall), s.calls[i]? = some c → s.CallOk c
  /-- handles are not used twice -/
  handles : ∀ (t u : Nat) (th thu : NativeThread), s.threads[t]? = some th →
    s.threads[u]? = some thu → th.handle = thu.handle → th.handle ≠ 0 → t = u
  /-- a join handle is in one batch -/
  claims : ∀ (i j : Nat) (c d : NativeCall), s.calls[i]? = some c → s.calls[j]? = some d →
    ∀ id id' t, (id, t) ∈ c.batch → (id', t) ∈ d.batch → i = j
  /-- a result is returned by one call -/
  values : ∀ (i j : Nat) (c d : NativeCall), s.calls[i]? = some c → s.calls[j]? = some d →
    ∀ t, c.value = .pointer t → d.value = .pointer t → i = j

attribute [local simp] NativeState.new

lemma Sound.new : Sound .new where
  next := Nat.one_pos
  thread t th h := by simp at h
  row id row h := by simp at h
  call i c h := by simp at h
  handles t u th thu h := by simp at h
  claims i j c d h := by simp at h
  values i j c d h := by simp at h

/-! ## Frames -/

variable {s s' : NativeState} {t : Nat} {th th' : NativeThread} {i : Nat} {c c' : NativeCall}
  {p : ClaimPoint} {caller : Caller} {b : Nat × Nat} {ids : List Nat}

/-- Whoever makes a call that has not returned stays. -/
structure KeepsCallers (s s' : NativeState) : Prop where
  running : ∀ (p : Nat) (th : NativeThread), s.threads[p]? = some th → th.stage = .running →
    s.busy (fun caller => decide (caller.thread = some p)) = true →
    ∃ th', s'.threads[p]? = some th' ∧ th'.stage = .running
  destroying : ∀ (q : Nat) (c : NativeCall), c ∈ s.calls → destroys c q = true →
    s.busy (fun caller => decide (caller.within = some q)) = true →
    ∃ c' ∈ s'.calls, destroys c' q = true

lemma busy_of_spawning {cond : Caller → Bool} (ht : s.threads[t]? = some th)
    (hspawning : th.spawning = true) (hcond : cond th.caller = true) : s.busy cond = true := by
  rw [busy, Bool.or_eq_true]
  exact .inr (any_eq_true.2 ⟨th, mem_of_getElem? ht, by simp [hcond, hspawning]⟩)

section

variable (h : s.ThreadOk t th) (ht : s.threads[t]? = some th) (hkeeps : KeepsCallers s s')

include h ht hkeeps

/-- A caller that stays does so for the tasks it spawns. -/
lemma ThreadOk.callers (hspawning : th.spawning = true) : (∀ p, th.caller.thread = some p →
      p < t ∧ ∃ thp, s'.threads[p]? = some thp ∧ thp.stage = .running) ∧
    ∀ q, th.caller.within = some q → ∃ c ∈ s'.calls, destroys c q = true := by
  refine ⟨fun p hp => ?_, fun q hq => ?_⟩
  · obtain ⟨hlt, thp, hthp, hstage⟩ := h.thread hspawning p hp
    exact ⟨hlt, hkeeps.running p thp hthp hstage (busy_of_spawning ht hspawning (by simp [hp]))⟩
  · obtain ⟨c, hc, hdestroys⟩ := h.within hspawning q hq
    exact hkeeps.destroying q c hc hdestroys (busy_of_spawning ht hspawning (by simp [hq]))

/-- A task that does not move, while its row stays. -/
lemma ThreadOk.frame (hnext : s.nextId ≤ s'.nextId)
    (hrow : ∀ row, s.rows th.handle = some row → row.finished = t →
      (∃ row', s'.rows th.handle = some row' ∧ row'.finished = t) ∨ th.Settled) :
        s'.ThreadOk t th where
  events := h.events
  held := h.held
  handle_lt := Nat.lt_of_lt_of_le h.handle_lt hnext
  handle_ne := h.handle_ne
  inserted hinserted := by
    obtain ⟨hstarted, ⟨row, hrow', hfinished⟩ | hsettled⟩ := h.inserted hinserted
    · exact ⟨hstarted, hrow row hrow' hfinished⟩
    · exact ⟨hstarted, .inr hsettled⟩
  thread hspawning := (h.callers ht hkeeps hspawning).1
  within hspawning := (h.callers ht hkeeps hspawning).2

end

/-- What the rows and the calls need of a task that moves. -/
structure Evolves (th th' : NativeThread) : Prop where
  callbacks : th'.callbacks = th.callbacks
  caller : th'.caller = th.caller
  inserted : th.inserted = true → th'.inserted = true ∧ th'.handle = th.handle
  fate : th'.fate = th.fate
  settled : th.Settled → th'.Settled
  destroying : th.stage = .exited true → th'.stage = .exited true

lemma Evolves.refl (th : NativeThread) : Evolves th th :=
  ⟨rfl, rfl, fun h => ⟨h, rfl⟩, rfl, id, id⟩

lemma HeadOk.evolves (h : HeadOk th p) (hevolves : Evolves th th') : HeadOk th' p := by
  cases p with
  | claimed => exact hevolves.fate.trans h
  | destroying => exact ⟨hevolves.destroying h.1, hevolves.fate.trans h.2⟩
  | finishing => exact hevolves.settled h

lemma exists_evolved (ht : s.threads[t]? = some th) (hevolves : Evolves th th') {u : Nat}
    {thu : NativeThread} (hu : s.threads[u]? = some thu) :
    ∃ thu', (s.threads.set t th')[u]? = some thu' ∧ Evolves thu thu' := by
  rw [getElem?_set_of_some ht]
  split
  next htu =>
    subst htu
    cases ht.symm.trans hu
    exact ⟨th', rfl, hevolves⟩
  next => exact ⟨thu, hu, .refl thu⟩

/-- A call that does not move, while the tasks it deals with evolve and their rows stay. -/
lemma CallOk.frame (h : s.CallOk c)
    (hrows : ∀ id t, (id, t) ∈ c.batch → ∃ row, s'.rows id = some row ∧ row.thread = none ∧
      row.finished = t) (hthreads : ∀ u thu, (c.value = .pointer u ∨ ∃ id, (id, u) ∈ c.batch) →
      s.threads[u]? = some thu → ∃ thu', s'.threads[u]? = some thu' ∧ Evolves thu thu') :
    s'.CallOk c where
  claims := hrows
  nodup := h.nodup
  idle := h.idle
  head p id u rest hp hb := by
    obtain ⟨thu, hthu, hhead⟩ := h.head p id u rest hp hb
    obtain ⟨thu', hthu', hev⟩ := hthreads u thu (.inr ⟨id, by simp [hb]⟩) hthu
    exact ⟨thu', hthu', hhead.evolves hev⟩
  rest b rest hb id u hmem := by
    obtain ⟨thu, hthu, hfate⟩ := h.rest b rest hb id u hmem
    obtain ⟨thu', hthu', hev⟩ := hthreads u thu (.inr ⟨id, by simp [hb, hmem]⟩) hthu
    exact ⟨thu', hthu', hev.fate.trans hfate⟩
  value u hv := by
    obtain ⟨thu, hthu, hfate⟩ := h.value u hv
    obtain ⟨thu', hthu', hev⟩ := hthreads u thu (.inl hv) hthu
    exact ⟨thu', hthu', hev.fate.trans hfate⟩

/-- Callers stay when a call moves in whose destructor none is made. -/
lemma KeepsCallers.setCall (hi : s.calls[i]? = some c) (hcalls : s'.calls = s.calls.set i c')
    (hthreads : ∀ (u : Nat) (thu : NativeThread), s.threads[u]? = some thu →
      ∃ thu', s'.threads[u]? = some thu' ∧ thu'.stage = thu.stage)
    (hidle : ∀ q, destroys c q = true →
      s.busy (fun caller => decide (caller.within = some q)) = false) : KeepsCallers s s' := by
  refine ⟨fun u thu hu hstage _ => ?_, fun q d hd hdestroys hbusy => ?_⟩
  · obtain ⟨thu', hthu', hstage'⟩ := hthreads u thu hu
    exact ⟨thu', hthu', hstage'.trans hstage⟩
  obtain ⟨j, hj⟩ := mem_iff_getElem?.1 hd
  by_cases hij : i = j
  · subst hij
    cases hi.symm.trans hj
    rw [hidle q hdestroys] at hbusy
    cases hbusy
  · exact ⟨d, hcalls ▸ mem_set_of_ne hij hj, hdestroys⟩

/-! ## Steps of a task -/

section

variable (h : s.Sound) (ht : s.threads[t]? = some th)
include h ht

lemma Sound.handles_set (hhandle : th'.handle = th.handle ∨ th'.handle = s.nextId) (u v : Nat)
    (thu thv : NativeThread) (hu : (s.threads.set t th')[u]? = some thu)
    (hv : (s.threads.set t th')[v]? = some thv) (heq : thu.handle = thv.handle)
    (hne : thu.handle ≠ 0) : u = v := by
  have hnew : ∀ (w : Nat) (thw : NativeThread), s.threads[w]? = some thw →
      th'.handle = thw.handle → th'.handle ≠ 0 → t = w := by
    intro w thw hw heq hne
    rcases hhandle with hold | hnext
    · exact h.handles t w th thw ht hw (hold.symm.trans heq) (hold ▸ hne)
    · have := (h.thread w thw hw).handle_lt
      omega
  rcases getElem?_set_cases hu with ⟨rfl, rfl⟩ | ⟨-, hu⟩ <;>
    rcases getElem?_set_cases hv with ⟨rfl, rfl⟩ | ⟨-, hv⟩
  · rfl
  · exact hnew v thv hv heq hne
  · exact (hnew u thu hu heq.symm (heq ▸ hne)).symm
  · exact h.handles u v thu thv hu hv heq hne

/-- A task moves; its row may be inserted. -/
lemma Sound.setThread {next : Nat} {rows : Nat → Option Running} (hnext : s.nextId ≤ next)
    (hkeep : ∀ id row, s.rows id = some row → rows id = some row)
    (hnew : ∀ id row, rows id = some row → s.rows id = some row ∨
      id = th'.handle ∧ row = ⟨th'.callbacks, some t, t⟩ ∧ th'.inserted = true ∧ th'.fate = .held)
    (hevolves : Evolves th th') (hspawning : th'.spawning = true → th.spawning = true)
    (hrunning : th.stage = .running →
      th'.stage = .running ∨ s.busy (fun caller => decide (caller.thread = some t)) = false)
    (hhandle : th'.handle = th.handle ∨ th'.handle = s.nextId) (hevents : th'.events = th'.history)
    (hheld : th'.stage ≠ .exited true → th'.fate = .held) (hlt : th'.handle < next)
    (hne : th'.stage ≠ .accepted → th'.stage ≠ .refused → th'.handle ≠ 0)
    (hinserted : th'.inserted = true → th'.stage.isStarted = true ∧ (th.inserted = true ∨
      rows th'.handle = some ⟨th'.callbacks, some t, t⟩)) :
    Sound { s.setThread t th' with nextId := next, rows := rows } := by
  have hkeeps : KeepsCallers s { s.setThread t th' with nextId := next, rows := rows } := by
    refine ⟨fun p thp hp hstage hbusy => ?_, fun q c hc hdestroys _ => ⟨c, hc, hdestroys⟩⟩
    show ∃ thp', (s.threads.set t th')[p]? = some thp' ∧ thp'.stage = .running
    rw [getElem?_set_of_some ht]
    split
    next htp =>
      subst htp
      cases ht.symm.trans hp
      rcases hrunning hstage with hstage' | hidle
      · exact ⟨th', rfl, hstage'⟩
      · rw [hidle] at hbusy
        cases hbusy
    next => exact ⟨thp, hp, hstage⟩
  have hok := h.thread t th ht
  refine ⟨Nat.lt_of_lt_of_le h.next hnext, fun u thu hu => ?_, fun id row hrow => ?_,
    fun j c hc => ?_, h.handles_set ht hhandle, h.claims, h.values⟩
  · rcases getElem?_set_cases hu with ⟨rfl, rfl⟩ | ⟨-, hu'⟩
    · refine ⟨hevents, fun hcase => ?_, hlt, hne, fun hins => ?_, fun hsp => ?_, fun hsp => ?_⟩
      · rcases hcase with hstage | hins
        · exact hheld hstage
        · refine hevolves.fate.trans (hok.held (.inr ?_))
          by_contra hold
          exact absurd (hevolves.inserted (by simpa using hold)).1 (by simp [hins])
      · obtain ⟨hstarted, hold | hrow⟩ := hinserted hins
        · refine ⟨hstarted, ?_⟩
          rw [(hevolves.inserted hold).2]
          exact (hok.inserted hold).2.imp (fun ⟨row, hrow, hfin⟩ => ⟨row, hkeep _ row hrow, hfin⟩)
            hevolves.settled
        · exact ⟨hstarted, .inl ⟨_, hrow, rfl⟩⟩
      · rw [hevolves.caller]
        exact (hok.callers ht hkeeps (hspawning hsp)).1
      · rw [hevolves.caller]
        exact (hok.callers ht hkeeps (hspawning hsp)).2
    · exact (h.thread u thu hu').frame hu' hkeeps hnext fun row hrow hfin =>
        .inl ⟨row, hkeep _ row hrow, hfin⟩
  · rcases hnew id row hrow with hrow | ⟨rfl, rfl, hins, hfate⟩
    swap
    · exact ⟨th', (getElem?_set_of_some ht).trans (if_pos rfl), rfl, hins, rfl, fun u hu =>
        ⟨(Option.some.inj hu).symm, hfate⟩⟩
    obtain ⟨thr, hthr, hid, hins, hcb, hthread⟩ := h.row id row hrow
    obtain ⟨thr', hthr', hev⟩ := exists_evolved ht hevolves hthr
    refine ⟨thr', hthr', ?_, (hev.inserted hins).1, hev.callbacks.trans hcb, fun u hu => ?_⟩
    · exact (hev.inserted hins).2.trans hid
    · exact ⟨(hthread u hu).1, hev.fate.trans (hthread u hu).2⟩
  · exact (h.call j c hc).frame
      (fun id u hmem => ((h.call j c hc).claims id u hmem).imp fun row hrow =>
        ⟨hkeep id row hrow.1, hrow.2⟩)
      fun u thu _ hu => exists_evolved ht hevolves hu

/-- Nothing has happened to a task that has not started. -/
lemma Sound.untouched (hstage : th.stage = .accepted ∨ th.stage = .numbered) :
    th.inserted = false ∧ th.events = [] := by
  have hok := h.thread t th ht
  constructor
  · by_contra hins
    have := (hok.inserted (by simpa using hins)).1
    rcases hstage with hs | hs <;> simp [hs, isStarted] at this
  · rw [hok.events, history]
    rcases hstage with hs | hs <;> simp [hs]

lemma Sound.refuse (hstage : th.stage = .accepted ∨ th.stage = .numbered) :
    (s.refuse t th).Sound := by
  have hok := h.thread t th ht
  obtain ⟨hnot, hevents⟩ := h.untouched ht hstage
  refine h.setThread ht (Nat.le_refl _) (fun _ _ => id) (fun _ _ => .inl)
    ⟨rfl, rfl, fun hins => ⟨hins, rfl⟩, rfl, ?_, ?_⟩ ?_ ?_ (.inl rfl) ?_ ?_ hok.handle_lt ?_ ?_
  · rcases hstage with hs | hs <;> simp [Settled, hs]
  · rcases hstage with hs | hs <;> simp [hs]
  · simp [spawning]
  · rcases hstage with hs | hs <;> simp [hs]
  · simp [history, hevents]
  · exact fun _ => hok.held (.inr hnot)
  · simp
  · simp [hnot]

lemma Sound.number (hstage : th.stage = .accepted) :
    Sound { s.setThread t { th with stage := .numbered, handle := s.nextId } with
      nextId := s.nextId + 1 } := by
  obtain ⟨hnot, hevents⟩ := h.untouched ht (.inl hstage)
  refine h.setThread ht (Nat.le_succ _) (fun _ _ => id) (fun _ _ => .inl)
    ⟨rfl, rfl, by simp [hnot], rfl, by simp [Settled, hstage], by simp [hstage]⟩
    (by simp [spawning, hstage]) (by simp [hstage]) (.inr rfl)
    (by simp [history, hevents]) (fun _ => (h.thread t th ht).held (.inr hnot))
    (Nat.lt_succ_self _)
    (fun _ _ => Nat.ne_of_gt h.next) (by simp [hnot])

lemma Sound.setStage {stage : ThreadStage} {events : List BufferEvent}
    (halive : th.stage = .numbered ∨ th.stage.isAlive = true) (hstarted : stage.isStarted = true)
    (hrunning : th.stage = .running →
      s.busy (fun caller => decide (caller.thread = some t)) = false)
    (hevents : events = history { th with stage := stage }) :
    (s.setThread t { th with stage := stage, events := events }).Sound := by
  have hok := h.thread t th ht
  have hexited : ∀ ok, th.stage ≠ .exited ok := by
    rintro ok hs
    simp [hs, isAlive] at halive
  have hne : th.handle ≠ 0 := by
    apply hok.handle_ne <;> intro hs <;> simp [hs, isAlive] at halive
  have hrefused : th.stage ≠ .refused := fun hs => by simp [hs, isAlive] at halive
  exact h.setThread ht (Nat.le_refl _) (fun _ _ => id) (fun _ _ => .inl)
    ⟨rfl, rfl, fun hins => ⟨hins, rfl⟩, rfl, by simp [Settled, hexited],
      fun hs => absurd hs (hexited true)⟩
    (by simp [spawning, hrefused]) (fun hs => .inr (hrunning hs)) (.inl rfl) hevents
    (fun _ => hok.held (.inl (hexited true))) hok.handle_lt (fun _ _ => hne)
    fun hins => ⟨hstarted, .inl hins⟩

lemma Sound.register (hstarted : th.stage.isStarted = true) (hnot : th.inserted = false) :
    Sound { s.setThread t { th with inserted := true } with
      rows := update s.rows th.handle (some ⟨th.callbacks, some t, t⟩) } := by
  have hok := h.thread t th ht
  have hne : th.handle ≠ 0 := by
    apply hok.handle_ne <;> intro hs <;> simp [hs, isStarted] at hstarted
  have hfate : th.fate = .held := hok.held (.inr hnot)
  -- a row with this handle would belong to this task
  have hnone : s.rows th.handle = none := by
    cases hrow : s.rows th.handle with
    | none => rfl
    | some row =>
      obtain ⟨thr, hthr, hid, hins, -⟩ := h.row _ row hrow
      have htr := h.handles _ t thr th hthr ht hid (hid ▸ hne)
      rw [htr, ht] at hthr
      cases hthr
      simp [hnot] at hins
  refine h.setThread ht (Nat.le_refl _) (fun id row hrow => ?_) (fun id row hrow => ?_)
    ⟨rfl, rfl, fun _ => ⟨rfl, rfl⟩, rfl, id, id⟩ ?_ (fun hs => .inl hs) (.inl rfl) ?_
    (fun _ => hfate) hok.handle_lt hok.handle_ne fun _ => ⟨hstarted, .inr ?_⟩
  · have hid : id ≠ th.handle := by
      rintro rfl
      simp [hnone] at hrow
    rw [update_of_ne hid, hrow]
  · by_cases hid : id = th.handle
    · subst hid
      rw [update_self] at hrow
      exact .inr ⟨rfl, (Option.some.inj hrow).symm, rfl, hfate⟩
    · rw [update_of_ne hid] at hrow
      exact .inl hrow
  · simp [spawning]
  · exact hok.events
  · exact update_self _ _ _

end

/-! ## Steps of a call -/

lemma Sound.row_of_claim (h : s.Sound) (hi : s.calls[i]? = some c)
    (hmem : (id, t) ∈ c.batch) (ht : s.threads[t]? = some th) :
    th.handle = id ∧ th.inserted = true ∧
      ∀ id' row, s.rows id' = some row → row.finished = t → id' = id ∧ row.thread = none := by
  obtain ⟨row, hrow, hthread, hfin⟩ := (h.call i c hi).claims id t hmem
  obtain ⟨thr, hthr, hid, hins, -⟩ := h.row id row hrow
  rw [hfin, ht] at hthr
  cases hthr
  refine ⟨hid, hins, fun id' row' hrow' hfin' => ?_⟩
  obtain ⟨thr', hthr', hid', -⟩ := h.row id' row' hrow'
  rw [hfin', ht] at hthr'
  obtain rfl := Option.some.inj hthr'
  obtain rfl : id' = id := hid'.symm.trans hid
  rw [hrow] at hrow'
  obtain rfl := Option.some.inj hrow'
  exact ⟨rfl, hthread⟩

lemma Sound.settleHead (h : s.Sound) (hi : s.calls[i]? = some c) {p' : ClaimPoint}
    (hp : c.point = .working p) (hb : c.batch = (id, t) :: rest)
    (ht : s.threads[t]? = some th) {fate : ResultFate} {events : List BufferEvent}
    {value : JoinValue} (hnotReturned : th.fate ≠ .returned)
    (hexited : fate = th.fate ∨ th.stage = .exited true)
    (hevents : events = history { th with fate := fate })
    (hhead : HeadOk { th with fate := fate, events := events } p')
    (hvalue : ∀ u, value = .pointer u → c.value = .pointer u ∨ u = t ∧ fate = .returned)
    (hidle : p = .destroying → s.busy (fun caller => decide (caller.within = some t)) = false) :
    Sound { s.setThread t { th with fate := fate, events := events } with
      calls := s.calls.set i { c with point := .working p', value := value } } := by
  have hmem : (id, t) ∈ c.batch := by simp [hb]
  obtain ⟨hid, hins, hrows⟩ := h.row_of_claim hi hmem ht
  have hok := h.thread t th ht
  have hc := h.call i c hi
  have hthreads : ∀ (u : Nat) (thu : NativeThread), s.threads[u]? = some thu →
      ∃ thu', (s.threads.set t { th with fate := fate, events := events })[u]? = some thu' ∧
        thu'.stage = thu.stage ∧ thu'.handle = thu.handle ∧ thu'.inserted = thu.inserted ∧
        thu'.callbacks = thu.callbacks ∧ (u ≠ t → thu' = thu) := by
    intro u thu hu
    rw [getElem?_set_of_some ht]
    split
    next htu =>
      subst htu
      cases ht.symm.trans hu
      exact ⟨_, rfl, rfl, rfl, rfl, rfl, fun hne => absurd rfl hne⟩
    next => exact ⟨thu, hu, rfl, rfl, rfl, rfl, fun _ => rfl⟩
  have hother : ∀ (u : Nat) (thu : NativeThread), u ≠ t → s.threads[u]? = some thu →
      (s.threads.set t { th with fate := fate, events := events })[u]? = some thu :=
    fun u thu hne hu => (getElem?_set_ne (Ne.symm hne)).trans hu
  have hkeeps : KeepsCallers s { s.setThread t { th with fate := fate, events := events } with
      calls := s.calls.set i { c with point := .working p', value := value } } := by
    refine .setCall hi rfl (fun u thu hu => ?_) fun q hdestroys => ?_
    · obtain ⟨thu', hthu', hstage, -⟩ := hthreads u thu hu
      exact ⟨thu', hthu', hstage⟩
    · -- the destructor of this call ends only when no call is made in it
      simp only [destroys, hp, hb, working.injEq, head?_cons, Option.map_some,
        Option.some.injEq, Bool.and_eq_true, decide_eq_true_eq] at hdestroys
      obtain ⟨rfl, rfl⟩ := hdestroys
      exact hidle rfl
  have hvalues : ∀ (j : Nat) (d : NativeCall), s.calls[j]? = some d → ∀ u, d.value = .pointer u →
      u ≠ t := by
    rintro j d hj u hdvalue rfl
    obtain ⟨thu, hthu, hfate⟩ := (h.call j d hj).value u hdvalue
    cases ht.symm.trans hthu
    exact hnotReturned hfate
  refine ⟨h.next, fun u thu hu => ?_, fun id' row hrow => ?_, fun j d hj => ?_,
    h.handles_set ht (.inl rfl), fun j k d e hj hk => ?_, fun j k d e hj hk u hd he => ?_⟩
  · rcases getElem?_set_cases hu with ⟨rfl, rfl⟩ | ⟨-, hu'⟩
    · refine ⟨hevents, fun hcase => ?_, hok.handle_lt, hok.handle_ne, fun _ => ?_,
        fun hsp => (hok.callers ht hkeeps hsp).1, fun hsp => (hok.callers ht hkeeps hsp).2⟩
      · rcases hexited with hsame | hstage
        · exact hsame.trans (hok.held hcase)
        · exact absurd hcase (by simp [hstage, hins])
      · obtain ⟨row, hrow, -, hfin⟩ := hc.claims id t hmem
        exact ⟨(hok.inserted hins).1, .inl ⟨row, hid.symm ▸ hrow, hfin⟩⟩
    · exact (h.thread u thu hu').frame hu' hkeeps (Nat.le_refl _) fun row hrow hfin =>
        .inl ⟨row, hrow, hfin⟩
  · obtain ⟨thr, hthr, hid', hins', hcb, hthread⟩ := h.row id' row hrow
    obtain ⟨thr', hthr', -, hhandle, hinserted, hcallbacks, hsame⟩ := hthreads _ thr hthr
    refine ⟨thr', hthr', hhandle.trans hid', hinserted.trans hins', hcallbacks.trans hcb,
      fun u hu => ?_⟩
    have hne : row.finished ≠ t := fun hfin => by
      rw [(hrows id' row hrow hfin).2] at hu
      cases hu
    rw [hsame hne]
    exact hthread u hu
  · rcases getElem?_set_cases hj with ⟨rfl, rfl⟩ | ⟨hne, hj₀⟩
    · refine ⟨hc.claims, hc.nodup, fun hidle' => absurd rfl (hidle' p'), ?_, ?_, ?_⟩
      · intro p₁ id₁ u rest₁ hp₁ hb₁
        obtain rfl := working.inj hp₁
        obtain ⟨⟨-, rfl⟩, -⟩ := by simpa [hb] using hb₁
        exact ⟨_, getElem?_set_at ht, hhead⟩
      · intro b rest₁ hb₁ id₁ u hu
        obtain ⟨thu, hthu, hfate⟩ := hc.rest b rest₁ hb₁ id₁ u hu
        have hne : u ≠ t := by
          rintro rfl
          have hnodup := hc.nodup
          obtain ⟨rfl, rfl⟩ := by simpa [hb] using hb₁
          rw [hb, map_cons, nodup_cons] at hnodup
          exact hnodup.1 (mem_map.2 ⟨_, hu, rfl⟩)
        exact ⟨thu, hother u thu hne hthu, hfate⟩
      · intro u hu
        rcases hvalue u hu with hold | ⟨rfl, hfate⟩
        · obtain ⟨thu, hthu, hfate⟩ := hc.value u hold
          exact ⟨thu, hother u thu (hvalues i c hi u hold) hthu, hfate⟩
        · exact ⟨_, getElem?_set_at ht, hfate⟩
    · refine (h.call j d hj₀).frame (h.call j d hj₀).claims fun u thu hin hu => ?_
      refine ⟨thu, hother u thu ?_ hu, .refl thu⟩
      rcases hin with hd | ⟨id₁, hd⟩
      · exact hvalues j d hj₀ u hd
      · rintro rfl
        exact hne (h.claims i j c d hi hj₀ id id₁ u hmem hd)
  · rcases getElem?_set_cases hj with ⟨rfl, rfl⟩ | ⟨-, hj₀⟩ <;>
      rcases getElem?_set_cases hk with ⟨rfl, rfl⟩ | ⟨-, hk₀⟩
    · exact fun _ _ _ _ _ => rfl
    · exact h.claims i k c e hi hk₀
    · exact h.claims j i d c hj₀ hi
    · exact h.claims j k d e hj₀ hk₀
  · rcases getElem?_set_cases hj with ⟨rfl, rfl⟩ | ⟨-, hj₀⟩ <;>
      rcases getElem?_set_cases hk with ⟨rfl, rfl⟩ | ⟨-, hk₀⟩
    · rfl
    · rcases hvalue u hd with hold | ⟨rfl, -⟩
      · exact h.values i k c e hi hk₀ u hold he
      · exact absurd rfl (hvalues k e hk₀ u he)
    · rcases hvalue u he with hold | ⟨rfl, -⟩
      · exact h.values j i d c hj₀ hi u hd hold
      · exact absurd rfl (hvalues j d hj₀ u hd)
    · exact h.values j k d e hj₀ hk₀ u hd he

/-- A step of a call that leaves the threads alone and starts or ends no destructor. -/
lemma Sound.moveCall (h : s.Sound) (hi : s.calls[i]? = some c)
    (hquiet : c.point ≠ .working .destroying) {rows : Nat → Option Running}
    (hrow : ∀ u thu, s.threads[u]? = some thu → ∀ row, s.rows thu.handle = some row →
      row.finished = u → (∃ row', rows thu.handle = some row' ∧ row'.finished = u) ∨ thu.Settled)
    (hrows : ∀ id row, rows id = some row → s.RowOk id row)
    (hclaims : ∀ j d id u, j ≠ i → s.calls[j]? = some d → (id, u) ∈ d.batch → (∃ row, rows id =
      some row ∧ row.thread = none ∧ row.finished = u) ∧ ∀ id', (id', u) ∉ c'.batch)
    (hvalue : ∀ u, c'.value = .pointer u → c.value = .pointer u)
    (hok : ({ s with rows := rows } : NativeState).CallOk c') :
    Sound { s with rows := rows, calls := s.calls.set i c' } := by
  have hkeeps : KeepsCallers s { s with rows := rows, calls := s.calls.set i c' } :=
    .setCall hi rfl (fun u thu hu => ⟨thu, hu, rfl⟩) (by simp [destroys, hquiet])
  refine ⟨h.next, fun u thu hu => (h.thread u thu hu).frame hu hkeeps (Nat.le_refl _)
    (hrow u thu hu),
    hrows, fun j d hj => ?_, h.handles, fun j k d e hj hk id id' u hd he => ?_,
    fun j k d e hj hk u hd he => ?_⟩
  · rcases getElem?_set_cases hj with ⟨rfl, rfl⟩ | ⟨hne, hj₀⟩
    · exact ⟨hok.claims, hok.nodup, hok.idle, hok.head, hok.rest, hok.value⟩
    · have hd := h.call j d hj₀
      exact ⟨fun id u hmem => (hclaims j d id u (Ne.symm hne) hj₀ hmem).1, hd.nodup, hd.idle,
        hd.head, hd.rest,
        hd.value⟩
  · rcases getElem?_set_cases hj with ⟨rfl, rfl⟩ | ⟨hne, hj₀⟩ <;>
      rcases getElem?_set_cases hk with ⟨rfl, rfl⟩ | ⟨hne', hk₀⟩
    · rfl
    · exact absurd hd ((hclaims k e id' u (Ne.symm hne') hk₀ he).2 id)
    · exact absurd he ((hclaims j d id u (Ne.symm hne) hj₀ hd).2 id')
    · exact h.claims j k d e hj₀ hk₀ id id' u hd he
  · rcases getElem?_set_cases hj with ⟨rfl, rfl⟩ | ⟨hne, hj₀⟩ <;>
      rcases getElem?_set_cases hk with ⟨rfl, rfl⟩ | ⟨hne', hk₀⟩
    · rfl
    · exact h.values i k c e hi hk₀ u (hvalue u hd) he
    · exact h.values j i d c hj₀ hi u hd (hvalue u he)
    · exact h.values j k d e hj₀ hk₀ u hd he

lemma handleIn_fst (hb : s.handleIn id = some b) : b.1 = id := by
  unfold handleIn at hb
  split at hb
  · cases hb
  · obtain ⟨u, -, rfl⟩ := Option.map_eq_some_iff.1 hb
    rfl

lemma mem_batch : (id, t) ∈ ids.filterMap s.handleIn ↔
      id ∈ ids ∧ ∃ row, s.rows id = some row ∧ row.thread = some t := by
  rw [mem_filterMap]
  constructor
  · rintro ⟨id', hid, hhandle⟩
    unfold handleIn at hhandle
    split at hhandle
    · cases hhandle
    · rename_i row hrow
      obtain ⟨u, hthread, hpair⟩ := Option.map_eq_some_iff.1 hhandle
      obtain ⟨rfl, rfl⟩ := Prod.mk.inj hpair
      exact ⟨hid, row, hrow, hthread⟩
  · rintro ⟨hid, row, hrow, hthread⟩
    exact ⟨id, hid, by simp [handleIn, hrow, hthread]⟩

/-- A call works on a batch that is not empty, and begins with its first thread. -/
lemma claimed_of_working {batch : List (Nat × Nat)} {next : CallPoint}
    (hpoint : (if batch = [] then next else .working .claimed) = .working p)
    (hbatch : batch = b :: rest) : .claimed = p := by
  rw [if_neg (hbatch ▸ cons_ne_nil b rest)] at hpoint
  exact working.inj hpoint

lemma Sound.claim (h : s.Sound) (hi : s.calls[i]? = some c) (hp : c.point = .starting)
    (hnodup : ids.Nodup) : (s.claim i c ids).Sound := by
  have hc := h.call i c hi
  have htake : ∀ id row, s.rows id = some row →
      ∃ row', s.takeThreads ids id = some row' ∧ row'.callbacks = row.callbacks ∧
        row'.finished = row.finished ∧ (row.thread = none ∨ id ∈ ids → row'.thread = none) := by
    intro id row hrow
    unfold takeThreads
    split
    · exact ⟨{ row with thread := none }, by rw [hrow, Option.map_some], rfl, rfl, fun _ => rfl⟩
    · rename_i hout
      exact ⟨row, hrow, rfl, rfl, fun hcase => hcase.resolve_right hout⟩
  -- a taken handle is the one of the thread of its row, and nothing was done with it
  have hmem : ∀ {id t}, (id, t) ∈ ids.filterMap s.handleIn → id ∈ ids ∧
      ∃ row, s.rows id = some row ∧ row.thread = some t ∧ row.finished = t ∧
        ∃ th, s.threads[t]? = some th ∧ th.handle = id ∧ th.fate = .held := by
    intro id t hmem
    obtain ⟨hid, row, hrow, hthread⟩ := mem_batch.1 hmem
    obtain ⟨th, hth, hhandle, -, -, hheld⟩ := h.row id row hrow
    obtain ⟨rfl, hfate⟩ := hheld t hthread
    exact ⟨hid, row, hrow, hthread, rfl, th, hth, hhandle, hfate⟩
  refine h.moveCall hi (by simp [hp]) ?_ ?_ ?_ (fun _ => id) ⟨?_, ?_, ?_, ?_, ?_, ?_⟩
  · intro u thu _ row hrow hfin
    obtain ⟨row', hrow', -, hfin', -⟩ := htake _ row hrow
    exact .inl ⟨row', hrow', hfin'.trans hfin⟩
  · intro id row hrow
    unfold takeThreads at hrow
    split at hrow
    · obtain ⟨row₀, hrow₀, rfl⟩ := Option.map_eq_some_iff.1 hrow
      obtain ⟨th, hth, hid, hins, hcallbacks, -⟩ := h.row id row₀ hrow₀
      exact ⟨th, hth, hid, hins, hcallbacks, nofun⟩
    · exact h.row id row hrow
  · intro j d id u hne hj hd
    obtain ⟨row, hrow, hnone, hfin⟩ := (h.call j d hj).claims id u hd
    obtain ⟨row', hrow', -, hfin', hthread⟩ := htake id row hrow
    refine ⟨⟨row', hrow', hthread (.inl hnone), hfin'.trans hfin⟩, fun id' hclaim => ?_⟩
    obtain ⟨-, row₁, hrow₁, hthread₁, hfin₁, th, hth, -⟩ := hmem hclaim
    have := ((h.row_of_claim hj hd hth).2.2 id' row₁ hrow₁ hfin₁).2
    rw [hthread₁] at this
    cases this
  · intro id u hclaim
    obtain ⟨hid, row, hrow, -, hfin, -⟩ := hmem hclaim
    obtain ⟨row', hrow', -, hfin', hthread⟩ := htake id row hrow
    exact ⟨row', hrow', hthread (.inr hid), hfin'.trans hfin⟩
  · refine List.Nodup.map_on ?_ (hnodup.filterMap ?_)
    · rintro ⟨id, u⟩ hx ⟨id', u'⟩ hy rfl
      obtain ⟨-, -, -, -, -, th, hth, hhandle, -⟩ := hmem hx
      obtain ⟨-, -, -, -, -, th', hth', hhandle', -⟩ := hmem hy
      cases hth.symm.trans hth'
      rw [← hhandle, ← hhandle']
    · intro a a' b hb hb'
      rw [← handleIn_fst hb, ← handleIn_fst hb']
  · intro hidle
    by_contra hne
    exact hidle .claimed (if_neg hne)
  · intro p id u rest hpoint hbatch
    obtain ⟨-, -, -, -, -, th, hth, -, hfate⟩ := hmem (hbatch ▸ mem_cons_self)
    obtain rfl := claimed_of_working hpoint hbatch
    exact ⟨th, hth, hfate⟩
  · intro b rest hbatch id u hu
    obtain ⟨-, -, -, -, -, th, hth, -, hfate⟩ := hmem (hbatch ▸ mem_cons_of_mem b hu)
    exact ⟨th, hth, hfate⟩
  · exact hc.value

lemma Sound.finish (h : s.Sound) (hi : s.calls[i]? = some c) (hp : c.point = .working .finishing)
    (hb : c.batch = (id, t) :: rest) : Sound { s with
      rows := update s.rows id none
      calls := s.calls.set i { c with
        point := if rest = [] then CallKind.next c.kind else .working .claimed
        batch := rest } } := by
  have hc := h.call i c hi
  have hmem : (id, t) ∈ c.batch := by simp [hb]
  obtain ⟨th, hth, hsettled⟩ := hc.head _ id t rest hp hb
  obtain ⟨row, hrow, hnone, hfin⟩ := hc.claims id t hmem
  have hnodup := hc.nodup
  rw [hb, map_cons, nodup_cons] at hnodup
  have hin : ∀ {b}, b ∈ rest → b ∈ c.batch := fun hb' => hb ▸ mem_cons_of_mem _ hb'
  have hout : ∀ {id' u}, (id', u) ∈ rest → u ≠ t := by
    rintro id' u hu rfl
    exact hnodup.1 (mem_map.2 ⟨_, hu, rfl⟩)
  -- the rows of other threads stay
  have hstay : ∀ {id' u row'}, u ≠ t → s.rows id' = some row' → row'.finished = u →
      update s.rows id none id' = some row' := by
    intro id' u row' hne hrow' hfin'
    have hid : id' ≠ id := by
      rintro rfl
      cases hrow.symm.trans hrow'
      exact hne (hfin'.symm.trans hfin)
    rw [update_of_ne hid, hrow']
  refine h.moveCall hi (by simp [hp]) ?_ ?_ ?_ (fun _ hu => hu)
    ⟨?_, hnodup.2, ?_, ?_, ?_, hc.value⟩
  · intro u thu hu row' hrow' hfin'
    by_cases hut : u = t
    · subst hut
      cases hth.symm.trans hu
      exact .inr hsettled
    · exact .inl ⟨row', hstay hut hrow' hfin', hfin'⟩
  · intro id' row' hrow'
    by_cases hid : id' = id
    · rw [hid, update_self] at hrow'
      cases hrow'
    · rw [update_of_ne hid] at hrow'
      exact h.row id' row' hrow'
  · intro j d id' u hne hj hd
    have hut : u ≠ t := by
      rintro rfl
      exact hne (h.claims j i d c hj hi id' id u hd hmem)
    obtain ⟨row', hrow', hnone', hfin'⟩ := (h.call j d hj).claims id' u hd
    refine ⟨⟨row', hstay hut hrow' hfin', hnone', hfin'⟩, fun id₁ hclaim => ?_⟩
    exact hne (h.claims j i d c hj hi id' id₁ u hd (hin hclaim))
  · intro id' u hu
    obtain ⟨row', hrow', hnone', hfin'⟩ := hc.claims id' u (hin hu)
    exact ⟨row', hstay (hout hu) hrow' hfin', hnone', hfin'⟩
  · intro hidle
    by_contra hne
    exact hidle .claimed (if_neg hne)
  · intro p id₁ u rest₁ hpoint hbatch
    obtain rfl := claimed_of_working hpoint hbatch
    have hfirst : (id₁, u) ∈ rest := by
      rw [show rest = (id₁, u) :: rest₁ from hbatch]
      exact mem_cons_self
    exact hc.rest _ rest hb id₁ u hfirst
  · intro b rest₁ hbatch id₁ u hu
    have hlater : (id₁, u) ∈ rest := by
      rw [show rest = b :: rest₁ from hbatch]
      exact mem_cons_of_mem b hu
    exact hc.rest _ rest hb id₁ u hlater

/-! ## New tasks and calls -/

lemma KeepsCallers.of_grow
    (hthreads : ∀ (p : Nat) (th : NativeThread), s.threads[p]? = some th → s'.threads[p]? = some th)
    (hcalls : ∀ c ∈ s.calls, c ∈ s'.calls) : KeepsCallers s s' :=
  ⟨fun p th hp hstage _ => ⟨th, hthreads p th hp, hstage⟩,
    fun _ c hc hdestroys _ => ⟨c, hcalls c hc, hdestroys⟩⟩

lemma mayCall_spec (hmay : s.mayCall caller = true) :
    (∀ p, caller.thread = some p → p < s.threads.length ∧
      ∃ th, s.threads[p]? = some th ∧ th.stage = .running) ∧
    ∀ q, caller.within = some q → ∃ c ∈ s.calls, destroys c q = true := by
  rw [mayCall, Bool.and_eq_true] at hmay
  refine ⟨fun p hp => ?_, fun q hq => ?_⟩
  · have hthread := hmay.1
    simp only [hp] at hthread
    split at hthread
    · cases hthread
    · rename_i th hth
      exact ⟨lt_of_getElem? hth, th, hth, by simpa using hthread⟩
  · have hwithin := hmay.2
    simp only [hq, any_eq_true, Bool.and_eq_true] at hwithin
    obtain ⟨c, hc, hdestroys, -⟩ := hwithin
    exact ⟨c, hc, hdestroys⟩

lemma Sound.addThread (h : s.Sound) (hmay : s.mayCall caller = true) (callbacks : List Nat) :
    Sound { s with threads := s.threads ++
      [⟨0, callbacks, caller, .accepted, false, .held, []⟩] } := by
  have hkeeps : KeepsCallers s { s with
      threads := s.threads ++ [⟨0, callbacks, caller, .accepted, false, .held, []⟩] } :=
    .of_grow (fun _ _ => getElem?_concat_old) fun _ => id
  refine ⟨h.next, fun u thu hu => ?_, fun id row hrow => ?_, fun j d hj => ?_,
    fun u v thu thv hu hv heq hne => ?_, h.claims, h.values⟩
  · rcases getElem?_concat_cases hu with hold | ⟨rfl, rfl⟩
    · exact (h.thread u thu hold).frame hold hkeeps (Nat.le_refl _) fun row hrow hfin =>
        .inl ⟨row, hrow, hfin⟩
    · obtain ⟨hthread, hwithin⟩ := mayCall_spec hmay
      refine ⟨rfl, fun _ => rfl, h.next, by simp, by simp, fun _ p hp => ?_, fun _ => hwithin⟩
      obtain ⟨hlt, th, hth, hstage⟩ := hthread p hp
      exact ⟨hlt, th, getElem?_concat_old hth, hstage⟩
  · obtain ⟨th, hth, hrest⟩ := h.row id row hrow
    exact ⟨th, getElem?_concat_old hth, hrest⟩
  · exact (h.call j d hj).frame (h.call j d hj).claims fun u thu _ hu =>
      ⟨thu, getElem?_concat_old hu, .refl thu⟩
  · -- the new task has no handle yet
    rcases getElem?_concat_cases hu with hu₀ | ⟨-, rfl⟩
    · rcases getElem?_concat_cases hv with hv₀ | ⟨-, rfl⟩
      · exact h.handles u v thu thv hu₀ hv₀ heq hne
      · exact absurd heq hne
    · exact absurd rfl hne

lemma Sound.addCall (h : s.Sound) (caller : Caller) (kind : CallKind) :
    Sound { s with calls := s.calls ++ [⟨caller, kind, .starting, [], .null⟩] } := by
  have hkeeps : KeepsCallers s { s with
      calls := s.calls ++ [⟨caller, kind, .starting, [], .null⟩] } :=
    .of_grow (fun _ _ => id) fun c hc => mem_append_left _ hc
  refine ⟨h.next, fun u thu hu => ?_, h.row, fun j d hj => ?_, h.handles,
    fun j k d e hj hk id id' u hd he => ?_, fun j k d e hj hk u hd he => ?_⟩
  · exact (h.thread u thu hu).frame hu hkeeps (Nat.le_refl _) fun row hrow hfin =>
      .inl ⟨row, hrow, hfin⟩
  · rcases getElem?_concat_cases hj with hold | ⟨-, rfl⟩
    · have hd := h.call j d hold
      exact ⟨hd.claims, hd.nodup, hd.idle, hd.head, hd.rest, hd.value⟩
    · exact ⟨by simp, nodup_nil, fun _ => rfl, by simp, by simp, by simp⟩
  · rcases getElem?_concat_cases hj with hj₀ | ⟨-, rfl⟩
    · rcases getElem?_concat_cases hk with hk₀ | ⟨-, rfl⟩
      · exact h.claims j k d e hj₀ hk₀ id id' u hd he
      · cases he
    · cases hd
  · rcases getElem?_concat_cases hj with hj₀ | ⟨-, rfl⟩
    · rcases getElem?_concat_cases hk with hk₀ | ⟨-, rfl⟩
      · exact h.values j k d e hj₀ hk₀ u hd he
      · cases he
    · cases hd

/-! ## Runs -/

variable {limit : Nat} {contains : Nat → Nat → Bool} {order : List Nat}

lemma Sound.proceedSpawn (h : s.Sound) {started : Bool}
    (hstep : s.proceedSpawn limit t started = some s') : s'.Sound := by
  unfold NativeState.proceedSpawn at hstep
  cases ht : s.threads[t]? with
  | none => simp [ht] at hstep
  | some th =>
    have hok := h.thread t th ht
    have hinsert : th.stage.isStarted = true → (if th.inserted then none
        else some { s.setThread t { th with inserted := true } with
          rows := update s.rows th.handle (some ⟨th.callbacks, some t, t⟩) }) = some s' →
        s'.Sound := by
      intro hstarted hstep
      rw [Option.ite_none_left_eq_some] at hstep
      obtain rfl := Option.some.inj hstep.2
      exact h.register ht hstarted (by simpa using hstep.1)
    simp only [ht] at hstep
    cases hs : th.stage with
    | accepted =>
      simp only [hs] at hstep
      split at hstep
      · cases hstep
        exact h.number ht hs
      · cases hstep
        exact h.refuse ht (.inl hs)
    | numbered =>
      simp only [hs] at hstep
      split at hstep
      · cases hstep
        refine h.setStage ht (.inl hs) rfl (by simp [hs]) ?_
        rw [hok.events]
        simp [history, hs]
      · cases hstep
        exact h.refuse ht (.inr hs)
    | refused => simp [hs] at hstep
    | running | returned | published | exited =>
      exact hinsert (by rw [hs]; rfl) (by simpa only [hs] using hstep)

lemma Sound.proceedThread (h : s.Sound) {status : Int}
    (hstep : s.proceedThread t status = some s') : s'.Sound := by
  unfold NativeState.proceedThread at hstep
  cases ht : s.threads[t]? with
  | none => simp [ht] at hstep
  | some th =>
    have hok := h.thread t th ht
    simp only [ht] at hstep
    cases hs : th.stage with
    | running =>
      simp only [hs, Option.ite_none_left_eq_some] at hstep
      obtain rfl := Option.some.inj hstep.2
      refine h.setStage ht (.inr (by rw [hs]; rfl)) rfl (fun _ => by simpa using hstep.1) ?_
      -- the entry has returned: the buffers are settled but for a result
      have hfate : th.fate = .held := hok.held (.inl (by simp [hs]))
      rw [hok.events]
      by_cases hzero : status = 0
      · simp [history, hs, hzero, hfate, ResultFate.events]
      · simp [history, hs, hzero, executeEnd]
    | returned ok | published ok =>
      simp only [hs, Option.some.injEq] at hstep
      subst hstep
      refine h.setStage ht (.inr (by rw [hs]; rfl)) rfl (by simp [hs]) ?_
      rw [hok.events]
      simp [history, hs]
    | accepted | numbered | refused | exited => simp [hs] at hstep

lemma pointer_of_settled {u : Nat} (hu : (match c.kind with
    | .join _ => JoinValue.panicked
    | _ => c.value) = .pointer u) : c.value = .pointer u := by
  split at hu
  · cases hu
  · exact hu

lemma Sound.settle (h : s.Sound) (hi : s.calls[i]? = some c) (hp : c.point = .working .claimed)
    (hb : c.batch = (id, t) :: rest)
    (ht : s.threads[t]? = some th) {ok : Bool} (hs : th.stage = .exited ok) :
    (s.settle i t c th ok).Sound := by
  have hevents := (h.thread t th ht).events
  have hc := h.call i c hi
  obtain ⟨th₀, hth₀, hhead⟩ := hc.head _ id t rest hp hb
  cases ht.symm.trans hth₀
  have hfate : th.fate = .held := hhead
  cases ok with
  | true =>
    have hbefore : th.events = executeEnd 0 := by
      simp [hevents, history, hs, hfate, ResultFate.events]
    rw [NativeState.settle, if_pos rfl]
    split
    · refine h.settleHead hi hp hb ht (by simp [hfate]) (.inr hs) ?_ ?_ ?_ nofun
      · simp [history, hs, hbefore, ResultFate.events]
      · exact .inr ⟨hs, .inl rfl⟩
      · exact fun u hu => .inr ⟨(JoinValue.pointer.inj hu).symm, rfl⟩
    · refine h.settleHead hi hp hb ht (by simp [hfate]) (.inr hs) ?_ ?_ (fun _ => .inl) nofun
      · simp [history, hs, hbefore, ResultFate.events]
      · exact ⟨hs, rfl⟩
  | false =>
    refine h.moveCall hi (by simp [hp]) (fun u thu _ row hrow hfin => .inl ⟨row, hrow, hfin⟩) h.row
      (fun j d id' u hne hj hd => ?_) (fun _ => pointer_of_settled)
        ⟨hc.claims, hc.nodup, ?_, ?_, hc.rest, ?_⟩
    · refine ⟨(h.call j d hj).claims id' u hd, fun id₁ hclaim => ?_⟩
      exact hne (h.claims j i d c hj hi id' id₁ u hd hclaim)
    · exact fun hidle => absurd rfl (hidle .finishing)
    · intro p id₁ u rest₁ hpoint hb₁
      obtain rfl := working.inj hpoint
      obtain ⟨⟨-, rfl⟩, -⟩ := by simpa [hb] using hb₁
      exact ⟨th, ht, .inl hs⟩
    · exact fun u hu => hc.value u (pointer_of_settled hu)

lemma Sound.proceedCall (h : s.Sound)
    (hstep : s.proceedCall contains i order = some s') : s'.Sound := by
  unfold NativeState.proceedCall at hstep
  cases hi : s.calls[i]? with
  | none => simp [hi] at hstep
  | some c =>
    simp only [hi] at hstep
    split at hstep
    · rename_i hp
      split at hstep
      case h_1 | h_2 =>
        cases hstep
        exact h.claim hi hp (nodup_singleton _)
      · rw [Option.ite_none_left_eq_some, Option.ite_none_right_eq_some] at hstep
        obtain ⟨-, hperm, hstep⟩ := hstep
        cases hstep
        refine h.claim hi hp ?_
        exact (isPerm_iff.1 hperm).nodup_iff.2 (nodup_range.filter _)
    · rename_i id t rest hp hb
      cases ht : s.threads[t]? with
      | none => simp [ht] at hstep
      | some th =>
        simp only [ht] at hstep
        split at hstep
        · rename_i ok hs
          cases hstep
          exact h.settle hi hp hb ht hs
        · cases hstep
    · rename_i id t rest hp hb
      rw [Option.ite_none_left_eq_some] at hstep
      obtain ⟨hidle, hstep⟩ := hstep
      cases ht : s.threads[t]? with
      | none => simp [ht] at hstep
      | some th =>
        simp only [ht, Option.some.injEq] at hstep
        subst hstep
        obtain ⟨th₀, hth₀, hs, hfate⟩ := (h.call i c hi).head _ id t rest hp hb
        cases ht.symm.trans hth₀
        refine h.settleHead hi hp hb ht (by simp [hfate]) (.inr hs) ?_ ?_ (fun _ => .inl) ?_
        · simp [(h.thread t th ht).events, history, hs, hfate, ResultFate.events]
        · exact .inr ⟨hs, .inr rfl⟩
        · exact fun _ => by simpa using hidle
    · rename_i id t rest hp hb
      cases hstep
      exact h.finish hi hp hb
    · cases hstep

lemma Sound.step (s : NativeState) (move : NativeMove) (s' : NativeState) (h : s.Sound)
    (hstep : s.step limit contains move = some s') : s'.Sound := by
  cases move with
  | spawn caller entry dropContext dropResult valid =>
    rw [NativeState.step, Option.ite_none_right_eq_some] at hstep
    obtain ⟨hmay, hstep⟩ := hstep
    split at hstep
    · cases hstep
      exact h.addThread hmay _
    · exact Option.some.inj hstep ▸ h
  | proceedSpawn t started => exact h.proceedSpawn hstep
  | proceedThread t status => exact h.proceedThread hstep
  | call caller kind =>
    cases kind with
    | drop handle =>
      rw [NativeState.step, Option.ite_none_right_eq_some] at hstep
      obtain ⟨-, hstep⟩ := hstep
      split at hstep
      · exact Option.some.inj hstep ▸ h
      · cases hstep
        exact h.addCall caller _
    | join | joinModule =>
      rw [NativeState.step, Option.ite_none_right_eq_some] at hstep
      · obtain rfl := Option.some.inj hstep.2
        exact h.addCall caller _
      · nofun
  | proceedCall i order => exact h.proceedCall hstep
  | isFinished handle => exact Option.some.inj hstep ▸ h

lemma Sound.run {moves : List NativeMove}
    (hrun : runSchedule (NativeState.step limit contains) moves .new = some s) : s.Sound :=
  runSchedule_invariant Sound.step Sound.new hrun

/-! ## The barrier -/

lemma moduleIds_of_returned (hi : s.calls[i]? = some c)
    (hkind : c.kind = .joinModule module) (hstep : s.proceedCall contains i order = some s')
    (hi' : s'.calls[i]? = some c') (hreturned : c'.point = .returned) :
    s.moduleIds contains module = [] ∧ s'.rows = s.rows := by
  have hpoint : ∀ d : NativeCall, (s.calls.set i d)[i]? = some c' → d.point = .returned := by
    intro d hd
    rw [getElem?_set_of_some hi, if_pos rfl] at hd
    exact Option.some.inj hd ▸ hreturned
  unfold proceedCall at hstep
  simp only [hi] at hstep
  split at hstep
  · simp only [hkind, Option.ite_none_left_eq_some, Option.ite_none_right_eq_some] at hstep
    obtain ⟨hblocks, hperm, hstep⟩ := hstep
    cases hstep
    have hbatch : order.filterMap s.handleIn = [] := by
      by_contra hne
      have := hpoint _ hi'
      simp only [if_neg hne] at this
      cases this
    -- a row of the module that does not block has a join handle to take
    have hnil : s.moduleIds contains module = [] := by
      rw [eq_nil_iff_forall_not_mem]
      intro id hid
      have hfree : s.blocks id = false := by
        by_contra hblock
        exact hblocks (any_eq_true.2 ⟨id, hid, by simpa using hblock⟩)
      have hnone : s.handleIn id = none :=
        filterMap_eq_nil_iff.1 hbatch id ((isPerm_iff.1 hperm).mem_iff.2 hid)
      have hmatch := (mem_filter.1 hid).2
      cases hrow : s.rows id with
      | none => simp [hrow] at hmatch
      | some row =>
        simp only [blocks, hrow, Bool.or_eq_false_iff, decide_eq_false_iff_not] at hfree
        simp only [handleIn, hrow, Option.map_eq_none_iff] at hnone
        exact hfree.1 hnone
    refine ⟨hnil, funext fun id => ?_⟩
    rw [hnil, isPerm_iff, perm_nil] at hperm
    simp [claim, takeThreads, hperm]
  · rename_i id t rest hp hb
    cases ht : s.threads[t]? with
    | none => simp [ht] at hstep
    | some th =>
      simp only [ht] at hstep
      split at hstep
      · cases hstep
        unfold settle at hi'
        simp only [hkind] at hi'
        split at hi' <;> cases hpoint _ hi'
      · cases hstep
  · rename_i id t rest hp hb
    rw [Option.ite_none_left_eq_some] at hstep
    obtain ⟨-, hstep⟩ := hstep
    cases ht : s.threads[t]? with
    | none => simp [ht] at hstep
    | some th =>
      simp only [ht, Option.some.injEq] at hstep
      subst hstep
      cases hpoint _ hi'
  · cases hstep
    have := hpoint _ hi'
    simp only [hkind] at this
    split at this <;> cases this
  · cases hstep

section

variable (h : s.Sound)
  (hrows : ∀ id row, s.rows id = some row → inModule contains module row.callbacks = false)
include h hrows

/-- In a state without a row of the module, no call holds a join handle of one of its threads, and
those of its threads that still run have not been registered. -/
lemma Sound.free_of_module :
    (∀ (j : Nat) (d : NativeCall) (id t : Nat) (th : NativeThread), s.calls[j]? = some d →
      (id, t) ∈ d.batch → s.threads[t]? = some th → inModule contains module th.callbacks = false) ∧
    (∀ (t : Nat) (th : NativeThread), s.threads[t]? = some th →
      inModule contains module th.callbacks = true → th.stage.isAlive = true →
      th.inserted = false) := by
  have hrow : ∀ id row (th : NativeThread), s.rows id = some row →
      s.threads[row.finished]? = some th → inModule contains module th.callbacks = false := by
    intro id row th hid hth
    obtain ⟨th₀, hth₀, -, -, hcallbacks, -⟩ := h.row id row hid
    cases hth.symm.trans hth₀
    rw [hcallbacks]
    exact hrows id row hid
  refine ⟨fun j d id t th hj hd ht => ?_, fun t th ht hmodule halive => ?_⟩
  · obtain ⟨row, hid, -, rfl⟩ := (h.call j d hj).claims id t hd
    exact hrow id row th hid ht
  by_contra hins
  obtain ⟨-, ⟨row, hid, rfl⟩ | hsettled⟩ := (h.thread t th ht).inserted (by simpa using hins)
  · rw [hrow _ row th hid ht] at hmodule
    cases hmodule
  · rcases hsettled with hs | ⟨hs, -⟩ <;> simp [hs, isAlive] at halive

/-- If every thread of the module that has not been registered was spawned by a thread of the module
or in the destructor of its result, none of them runs. -/
lemma Sound.none_alive (hinside : ∀ (t : Nat) (th : NativeThread), s.threads[t]? = some th →
      inModule contains module th.callbacks = true → th.stage.isAlive = true → th.inserted = false →
      ∃ (p : Nat) (thp : NativeThread), (th.caller.thread = some p ∨ th.caller.within = some p) ∧
        s.threads[p]? = some thp ∧ inModule contains module thp.callbacks = true) (t : Nat)
    (th : NativeThread) (ht : s.threads[t]? = some th)
    (hmodule : inModule contains module th.callbacks = true) : th.stage.isAlive = false := by
  obtain ⟨hclaims, hinserted⟩ := h.free_of_module hrows
  -- strong induction: a thread that spawns another one was accepted before it
  induction t using Nat.strongRecOn generalizing th with
  | ind t ih =>
    by_contra halive
    rw [Bool.not_eq_false] at halive
    have hnot := hinserted t th ht hmodule halive
    have hspawning : th.spawning = true := by
      have hrefused : th.stage ≠ .refused := fun hs => by simp [hs, isAlive] at halive
      simp [spawning, hrefused, hnot]
    obtain ⟨p, thp, hcaller | hcaller, hp, hmodulep⟩ := hinside t th ht hmodule halive hnot
    · obtain ⟨hlt, thp', hp', hs⟩ := (h.thread t th ht).thread hspawning p hcaller
      cases hp.symm.trans hp'
      have := ih p hlt thp hp hmodulep
      simp [hs, isAlive] at this
    · obtain ⟨c, hc, hdestroys⟩ := (h.thread t th ht).within hspawning p hcaller
      obtain ⟨j, hj⟩ := mem_iff_getElem?.1 hc
      simp only [destroys, Bool.and_eq_true, decide_eq_true_eq, Option.map_eq_some_iff] at hdestroys
      obtain ⟨-, ⟨id, q⟩, hhead, rfl⟩ := hdestroys
      rw [hclaims j c id _ thp hj (mem_of_mem_head? hhead) hp] at hmodulep
      cases hmodulep

end

/-! ## Buffers are handed over once -/

/-- Nothing more will happen to the buffers: `spawn` has dropped the task, or its handle was
consumed and the call that did has finished. -/
def Done (s : NativeState) (th : NativeThread) : Prop :=
  th.stage = .refused ∨ th.inserted = true ∧ s.rows th.handle = none

lemma ThreadOk.settled (h : s.ThreadOk t th) (hdone : s.Done th) :
    th.stage = .refused ∨ th.Settled := by
  obtain hs | ⟨hins, hrow⟩ := hdone
  · exact .inl hs
  · obtain ⟨-, ⟨row, hsome, -⟩ | hsettled⟩ := h.inserted hins
    · rw [hrow] at hsome
      cases hsome
    · exact .inr hsettled

end NativeState

attribute [local simp] dropBuffer

/-- In every run of any number of threads and calls:

* the context of a task is consumed or destroyed once, when the entry has returned or the task is
  dropped; its result is returned or destroyed at most once, and only if it was initialised; no
  buffer is freed twice or after it was returned. When the handle of the task was consumed or the
  task was refused, each of this has happened exactly once;
* no two tasks have the same handle, and no two calls return the same result;
* when `join_module_threads` returns, no call has a join handle of a thread of the module, and those
  of its threads that still run were started by a `spawn` that has not returned. If all such calls
  are made by threads of the module or by the destructors of their results, none runs. -/
theorem nativeThreads_once (limit : Nat) (contains : Nat → Nat → Bool) (moves : List NativeMove)
    (s : NativeState) (hrun : runSchedule (NativeState.step limit contains) moves .new = some s) :
    (∀ (t : Nat) (th : NativeThread), s.threads[t]? = some th →
      th.events.count .consumed + th.events.count (.destroyed .context) =
        (if th.stage = .accepted ∨ th.stage = .numbered ∨ th.stage = .running then 0 else 1) ∧
      th.events.count .initialized ≤ 1 ∧
      th.events.count .returned + th.events.count (.destroyed .result) ≤
        th.events.count .initialized ∧ th.events.count (.freed .context) ≤ 1 ∧
      th.events.count (.freed .result) + th.events.count .returned ≤ 1 ∧
      (s.Done th → th.events.count .returned + th.events.count (.destroyed .result) =
          th.events.count .initialized ∧ th.events.count (.freed .context) = 1 ∧
        th.events.count (.freed .result) + th.events.count .returned = 1)) ∧
    (∀ (t u : Nat) (th thu : NativeThread), s.threads[t]? = some th → s.threads[u]? = some thu →
      th.handle = thu.handle → th.handle ≠ 0 → t = u) ∧
    (∀ (i j t : Nat) (c d : NativeCall), s.calls[i]? = some c → s.calls[j]? = some d →
      c.value = .pointer t → d.value = .pointer t → i = j) ∧
    (∀ (i module : Nat) (order : List Nat) (c c' : NativeCall) (s' : NativeState),
      s.calls[i]? = some c → c.kind = .joinModule module →
      s.step limit contains (.proceedCall i order) = some s' → s'.calls[i]? = some c' →
      c'.point = .returned →
      (∀ (j : Nat) (d : NativeCall) (id t : Nat) (th : NativeThread), s'.calls[j]? = some d →
        (id, t) ∈ d.batch → s'.threads[t]? = some th →
        NativeState.inModule contains module th.callbacks = false) ∧
      (∀ (t : Nat) (th : NativeThread), s'.threads[t]? = some th →
        NativeState.inModule contains module th.callbacks = true → th.stage.isAlive = true →
        th.inserted = false) ∧ ((∀ (t : Nat) (th : NativeThread), s'.threads[t]? = some th →
          NativeState.inModule contains module th.callbacks = true → th.stage.isAlive = true →
          th.inserted = false → ∃ (p : Nat) (thp : NativeThread),
            (th.caller.thread = some p ∨ th.caller.within = some p) ∧ s'.threads[p]? = some thp ∧
            NativeState.inModule contains module thp.callbacks = true) →
        ∀ (t : Nat) (th : NativeThread), s'.threads[t]? = some th →
          NativeState.inModule contains module th.callbacks = true →
      th.stage.isAlive = false)) := by
  have hs := NativeState.Sound.run hrun
  refine ⟨fun t th ht => ?_, hs.handles, ?_, ?_⟩
  · have hok := hs.thread t th ht
    have hdone := hok.settled
    have hheld := hok.held
    rw [hok.events, history]
    unfold Settled at hdone
    generalize th.stage = stage at *
    generalize th.fate = fate at *
    -- the history is one of finitely many lists
    cases stage with
    | accepted | numbered | running => simpa using hdone
    | refused => simp [dropTask]
    | returned ok | published ok =>
      obtain rfl := hheld (.inl (by simp))
      cases ok
      · simp [executeEnd]
      · simpa [executeEnd, ResultFate.events] using hdone
    | exited ok =>
      cases ok with
      | false => simp [executeEnd]
      | true =>
        cases fate with
        | held | destroying => simpa [executeEnd, ResultFate.events] using hdone
        | returned | destroyed => simp [executeEnd, ResultFate.events]
  · exact fun i j t c d hi hj => hs.values i j c d hi hj t
  intro i module order c c' s' hi hkind hstep hi' hreturned
  have hs' : s'.Sound := hs.step _ _ _ hstep
  obtain ⟨hnone, hrows⟩ := NativeState.moduleIds_of_returned hi hkind hstep hi' hreturned
  have hmodule : ∀ id row, s'.rows id = some row →
      NativeState.inModule contains module row.callbacks = false := by
    intro id row hrow
    rw [hrows] at hrow
    obtain ⟨th, hth, rfl, -⟩ := hs.row id row hrow
    by_contra hin
    have hmem : th.handle ∈ s.moduleIds contains module :=
      mem_filter.2 ⟨mem_range.2 (hs.thread _ th hth).handle_lt, by simpa [hrow] using hin⟩
    rw [hnone] at hmem
    cases hmem
  obtain ⟨hclaims, hinserted⟩ := hs'.free_of_module hmodule
  exact ⟨hclaims, hinserted, hs'.none_alive hmodule⟩

/-- A thread of the module that another thread has started but not yet registered is missed by
`join_module_threads`. -/
theorem joinModule_misses_unregistered :
    ∃ s, runSchedule (step 100 fun _ address => decide (address = 7))
        [.spawn ⟨none, none⟩ 7 8 9 true, .proceedSpawn 0 true, .proceedSpawn 0 true,
          .call ⟨none, none⟩ (.joinModule 0), .proceedCall 0 []] .new = some s ∧
      (∃ c, s.calls[0]? = some c ∧ c.point = .returned) ∧
      ∃ th, s.threads[0]? = some th ∧ th.stage = .running ∧ 7 ∈ th.callbacks :=
  ⟨_, rfl, ⟨_, rfl, rfl⟩, _, rfl, rfl, by decide⟩

/-- A task whose result one join returns while another one finds the handle consumed. -/
theorem nativeThreads_once_joined :
    ∃ s th, runSchedule (step 100 fun _ address => decide (address = 7))
        [.spawn ⟨none, none⟩ 7 8 9 true, .proceedSpawn 0 true, .proceedSpawn 0 true,
          .proceedThread 0 0, .proceedSpawn 0 true, .call ⟨none, none⟩ (.join 1),
          .call ⟨none, none⟩ (.join 1), .proceedCall 0 [], .proceedThread 0 0, .proceedThread 0 0,
          .proceedCall 0 [], .proceedCall 1 [], .proceedCall 0 []] .new = some s ∧
      s.threads[0]? = some th ∧ th.events.count (.freed .context) = 1 ∧
      th.events.count (.freed .result) + th.events.count .returned = 1 := by
  have hrun := Option.eq_some_of_isSome (o := runSchedule
    (step 100 fun _ address => decide (address = 7))
    [.spawn ⟨none, none⟩ 7 8 9 true, .proceedSpawn 0 true, .proceedSpawn 0 true,
      .proceedThread 0 0, .proceedSpawn 0 true, .call ⟨none, none⟩ (.join 1),
      .call ⟨none, none⟩ (.join 1), .proceedCall 0 [], .proceedThread 0 0, .proceedThread 0 0,
      .proceedCall 0 [], .proceedCall 1 [], .proceedCall 0 []] .new) (by decide)
  obtain ⟨hcounts, -⟩ := nativeThreads_once 100 _ _ _ hrun
  exact ⟨_, _, hrun, rfl, ((hcounts 0 _ rfl).2.2.2.2.2 (.inr ⟨rfl, rfl⟩)).2⟩

end Arandu.Runtime
