import Arandu.Runtime.PhaseLock

/-!
# The phase lock is safe and phase-fair

`PhaseCore` ties the fields of an entry to the events at its address, one event at a time.
`PhaseInv` adds what holds between critical sections: a queued reader has a writer to wait for, a
queued writer has a holder, and at most one writer has overtaken any queued reader.
-/

namespace Arandu.Runtime

open Arandu.Library List Option PhaseState Function PhaseResult CountMap PhaseTable PhaseSystem
  PhaseEvent PhaseStep

/-! ## Events and fields -/

/-- The fields of an entry count the events at its address. -/
structure PhaseCore (s : PhaseState) (h : List PhaseEvent) : Prop where
  total : s.readers = s.readerOwners.total
  positive : ∀ o, s.readerOwners.lookup o ≠ some 0
  writer : s.writer = s.writerOwner.isSome
  readHolds : ∀ o, h.count (.entered o false) + h.count (.signaled o false) =
    h.count (.released o false) + s.readerOwners.count o
  writeHolds : ∀ o, h.count (.entered o true) + h.count (.signaled o true) =
    h.count (.released o true) + if s.writerOwner = some o then 1 else 0
  readWaits : ∀ o, h.count (.queued o false) =
    h.count (.signaled o false) + s.waitingReaders.count o
  writeWaits : ∀ o, h.count (.queued o true) = h.count (.signaled o true) + s.waitingWriters.count o
  distinct : (s.waitingReaders ++ s.waitingWriters).Nodup
  patient : ∀ o ∈ s.waitingReaders ++ s.waitingWriters,
    s.readerOwners.count o = 0 ∧ s.writerOwner ≠ some o
  order : arrivedWriters h = admittedWriters h ++ s.waitingWriters
  admitted : ∀ h₁ e h₂ owner, h = h₁ ++ e :: h₂ →
    e = .entered owner true ∨ e = .signaled owner true → ∀ o w, holds h₁ o w = 0
  dropped : ∀ h₁ h₂, h = h₁ ++ .dropped :: h₂ → ∀ o w, holds h₁ o w = 0 ∧ waits h₁ o w = 0

lemma append_singleton_eq {α : Type} {h h₁ h₂ : List α} {e e' : α}
    (heq : h ++ [e] = h₁ ++ e' :: h₂) :
    (∃ t, h = h₁ ++ e' :: t ∧ h₂ = t ++ [e]) ∨ (h = h₁ ∧ e = e' ∧ h₂ = []) := by
  rcases eq_nil_or_concat h₂ with rfl | ⟨t, x, rfl⟩
  · obtain ⟨hinit, hlast⟩ := append_inj' heq rfl
    exact .inr ⟨hinit, singleton_inj.1 hlast, rfl⟩
  · rw [concat_eq_append, ← cons_append, ← append_assoc] at heq
    obtain ⟨hinit, hlast⟩ := append_inj' heq rfl
    exact .inl ⟨t, hinit, by rw [hlast, concat_eq_append]⟩

variable {owner : OwnerId} {s' : PhaseState} {events : List PhaseEvent} {e : PhaseEvent}
  {s : PhaseState}

section Core

variable {s : PhaseState} {h : List PhaseEvent}

section

variable (hc : PhaseCore s h)
include hc

lemma PhaseCore.holds_read (o : OwnerId) : holds h o false = s.readerOwners.count o := by
  have := hc.readHolds o
  unfold holds
  omega

lemma PhaseCore.holds_write (o : OwnerId) :
    holds h o true = if s.writerOwner = some o then 1 else 0 := by
  have := hc.writeHolds o
  unfold holds
  omega

lemma PhaseCore.waits_read (o : OwnerId) : waits h o false = s.waitingReaders.count o := by
  have := hc.readWaits o
  unfold waits
  omega

lemma PhaseCore.waits_write (o : OwnerId) : waits h o true = s.waitingWriters.count o := by
  have := hc.writeWaits o
  unfold waits
  omega

lemma PhaseCore.holds_zero (hreaders : s.readers = 0) (hwriter : s.writerOwner = none)
    (o : OwnerId) (w : Bool) : holds h o w = 0 := by
  cases w with
  | false =>
    rw [hc.holds_read]
    have := s.readerOwners.count_le_total o
    rw [← hc.total] at this
    omega
  | true => rw [hc.holds_write, hwriter, if_neg (by simp)]

end

lemma arrivedWriters_append (h : List PhaseEvent) (e : PhaseEvent) :
    arrivedWriters (h ++ [e]) = arrivedWriters h ++ arrivedWriters [e] := filterMap_append

lemma admittedWriters_append (h h' : List PhaseEvent) :
    admittedWriters (h ++ h') = admittedWriters h ++ admittedWriters h' := filterMap_append

lemma PhaseCore.event (hc : PhaseCore s h) (htotal : s'.readers = s'.readerOwners.total)
    (hpositive : ∀ o, s'.readerOwners.lookup o ≠ some 0)
    (hwriter : s'.writer = s'.writerOwner.isSome)
    (hreads : ∀ o, [e].count (.entered o false) + [e].count (.signaled o false) +
      s.readerOwners.count o = [e].count (.released o false) + s'.readerOwners.count o)
    (hwrites : ∀ o, [e].count (.entered o true) + [e].count (.signaled o true) +
      (if s.writerOwner = some o then 1 else 0) =
        [e].count (.released o true) + if s'.writerOwner = some o then 1 else 0)
    (hreadQueue : ∀ o, [e].count (.queued o false) + s.waitingReaders.count o =
      [e].count (.signaled o false) + s'.waitingReaders.count o)
    (hwriteQueue : ∀ o, [e].count (.queued o true) + s.waitingWriters.count o =
      [e].count (.signaled o true) + s'.waitingWriters.count o)
    (hdistinct : (s'.waitingReaders ++ s'.waitingWriters).Nodup)
    (hpatient : ∀ o ∈ s'.waitingReaders ++ s'.waitingWriters,
      s'.readerOwners.count o = 0 ∧ s'.writerOwner ≠ some o)
    (horder : s.waitingWriters ++ arrivedWriters [e] = admittedWriters [e] ++ s'.waitingWriters)
    (hadmits : ∀ o, e = .entered o true ∨ e = .signaled o true → ∀ o w, holds h o w = 0)
    (hdrops : e = .dropped → ∀ o w, holds h o w = 0 ∧ waits h o w = 0) :
    PhaseCore s' (h ++ [e]) where
  total := htotal
  positive := hpositive
  writer := hwriter
  readHolds o := by
    have := hc.readHolds o
    have := hreads o
    simp only [count_append]
    omega
  writeHolds o := by
    have := hc.writeHolds o
    have := hwrites o
    simp only [count_append]
    omega
  readWaits o := by
    have := hc.readWaits o
    have := hreadQueue o
    simp only [count_append]
    omega
  writeWaits o := by
    have := hc.writeWaits o
    have := hwriteQueue o
    simp only [count_append]
    omega
  distinct := hdistinct
  patient := hpatient
  order := by
    rw [arrivedWriters_append, admittedWriters_append, hc.order, append_assoc, append_assoc, horder]
  admitted h₁ e' h₂ owner heq hadmitted := by
    rcases append_singleton_eq heq with ⟨t, ht, -⟩ | ⟨rfl, rfl, -⟩
    · exact hc.admitted h₁ e' t owner ht hadmitted
    · exact hadmits owner hadmitted
  dropped h₁ h₂ heq := by
    rcases append_singleton_eq heq with ⟨t, ht, -⟩ | ⟨rfl, rfl, -⟩
    · exact hc.dropped h₁ t ht
    · exact hdrops rfl

attribute [local simp] count_singleton

lemma PhaseCore.enterWrite (hc : PhaseCore s h) (hreaders : s.readers = 0)
    (hwriter : s.writerOwner = none) (hwaiting : s.waitingWriters = [])
    (hawake : owner ∉ s.waitingReaders) :
    PhaseCore { s with writer := true, writerOwner := some owner }
    (h ++ [.entered owner true]) := by
  refine hc.event hc.total hc.positive rfl (by simp) ?_ (fun _ => rfl) (fun _ => rfl)
    hc.distinct (fun o ho => ⟨(hc.patient o ho).1, ?_⟩) ?_
    (fun _ _ => hc.holds_zero hreaders hwriter) (by simp)
  · simp [hwriter]
  · rintro ⟨⟩
    simp only [hwaiting, append_nil] at ho
    exact hawake ho
  · rw [hwaiting]
    rfl

lemma PhaseState.addReader_some (hadd : s.addReader owner = some s') : s' = { s with
      readers := s.readers + 1
      readerOwners := s.readerOwners.insert owner (s.readerOwners.count owner + 1) } := by
  unfold addReader at hadd
  split at hadd
  · exact (some.inj hadd).symm
  · cases hadd

lemma count_addReader (m : CountMap OwnerId) (owner o : OwnerId) :
    count (m.insert owner (m.count owner + 1)) o = m.count o + if owner = o then 1 else 0 := by
  by_cases ho : owner = o
  · subst ho
    rw [count_insert_self, if_pos rfl]
  · rw [count_insert_of_ne _ (Ne.symm ho), if_neg ho, Nat.add_zero]

lemma total_addReader (m : CountMap OwnerId) (owner : OwnerId) :
    total (m.insert owner (m.count owner + 1)) = m.total + 1 := by
  have := m.total_insert owner (m.count owner + 1)
  omega

lemma positive_addReader {m : CountMap OwnerId} (hm : ∀ o, m.lookup o ≠ some 0)
    (owner : OwnerId) (n : Nat) : ∀ o, (m.insert owner (n + 1)).lookup o ≠ some 0 := by
  intro o
  by_cases ho : o = owner
  · subst ho
    simp
  · rw [AList.lookup_insert_ne ho]
    exact hm o

section

variable (hc : PhaseCore s h)
include hc

lemma PhaseCore.enterRead (hadd : s.addReader owner = some s')
    (hawake : owner ∉ s.waitingReaders ++ s.waitingWriters) :
    PhaseCore s' (h ++ [.entered owner false]) := by
  rw [addReader_some hadd]
  refine hc.event (hc.total ▸ (total_addReader _ _).symm) (positive_addReader hc.positive owner _)
    hc.writer ?_ (by simp) (fun _ => rfl) (fun _ => rfl) hc.distinct
    (fun o ho => ⟨?_, (hc.patient o ho).2⟩) (append_nil _) (by simp) (by simp)
  · simp only [count_addReader]
    simp [Nat.add_comm]
  · have hne : owner ≠ o := fun heq => hawake (heq ▸ ho)
    rw [count_addReader, if_neg hne, (hc.patient o ho).1]

section

variable (hawake : owner ∉ s.waitingReaders ++ s.waitingWriters)
  (hholds : s.readerOwners.count owner = 0 ∧ s.writerOwner ≠ some owner)
include hawake hholds

lemma PhaseCore.queueRead : PhaseCore { s with waitingReaders := s.waitingReaders ++ [owner] }
      (h ++ [.queued owner false]) := by
  refine hc.event hc.total hc.positive hc.writer (fun _ => rfl) (fun _ => rfl) ?_ (by simp) ?_
    (fun o ho => ?_) (append_nil _) (by simp) (by simp)
  · intro o
    simp [count_append, Nat.add_comm]
  · have hdistinct := hc.distinct
    grind
  · simp only [mem_append, mem_singleton] at ho
    rcases ho with (ho | rfl) | ho
    · exact hc.patient o (mem_append_left _ ho)
    · exact hholds
    · exact hc.patient o (mem_append_right _ ho)

lemma PhaseCore.queueWrite : PhaseCore { s with waitingWriters := s.waitingWriters ++ [owner] }
      (h ++ [.queued owner true]) := by
  refine hc.event hc.total hc.positive hc.writer (fun _ => rfl) (fun _ => rfl) (by simp) ?_ ?_
    (fun o ho => ?_) rfl (by simp) (by simp)
  · simp [Nat.add_comm]
  · rw [← append_assoc]
    exact nodup_append.2 ⟨hc.distinct, nodup_singleton _,
      fun a ha b hb hab => hawake (mem_singleton.1 hb ▸ hab ▸ ha)⟩
  · rw [← append_assoc, mem_append, mem_singleton] at ho
    rcases ho with ho | rfl
    · exact hc.patient o ho
    · exact hholds

end

lemma PhaseCore.signalRead {rest : List OwnerId} (hwaiting : s.waitingReaders = owner :: rest)
    (hadd : { s with waitingReaders := rest }.addReader owner = some s') :
    PhaseCore s' (h ++ [.signaled owner false]) := by
  have hdistinct : (owner :: (rest ++ s.waitingWriters)).Nodup := by
    simpa [hwaiting] using hc.distinct
  rw [addReader_some hadd]
  refine hc.event (hc.total ▸ (total_addReader _ _).symm) (positive_addReader hc.positive owner _)
    hc.writer ?_ (by simp) ?_ (by simp) (nodup_cons.1 hdistinct).2 (fun o ho => ?_)
    (append_nil _) (by simp) (by simp)
  · simp only [count_addReader]
    simp [Nat.add_comm]
  · simp [hwaiting, count_cons, Nat.add_comm]
  · have hold := hc.patient o (by rw [hwaiting]; exact mem_cons_of_mem _ ho)
    have hne : owner ≠ o := fun heq => (nodup_cons.1 hdistinct).1 (heq ▸ ho)
    exact ⟨by rw [count_addReader, if_neg hne, hold.1], hold.2⟩

lemma PhaseCore.signalWrite {rest : List OwnerId} (hreaders : s.readers = 0)
    (hwriter : s.writerOwner = none) (hwaiting : s.waitingWriters = owner :: rest) :
    PhaseCore { s with writer := true, writerOwner := some owner, waitingWriters := rest }
      (h ++ [.signaled owner true]) := by
  have hdistinct := hc.distinct
  rw [hwaiting] at hdistinct
  refine hc.event hc.total hc.positive rfl (by simp) ?_ (by simp) ?_
    (hdistinct.sublist (Sublist.append_left (sublist_cons_self _ _) _)) (fun o ho => ?_) ?_
    (fun _ _ => hc.holds_zero hreaders hwriter) (by simp)
  · simp [hwriter]
  · simp [hwaiting, count_cons, Nat.add_comm]
  · have hold := hc.patient o
    simp only [hwaiting, nodup_append, nodup_cons, mem_append, mem_cons] at hdistinct hold ho
    refine ⟨(hold (ho.imp_right .inr)).1, ?_⟩
    rintro ⟨⟩
    -- the admitted writer was queued once only
    exact ho.elim (fun ho => hdistinct.2.2 _ ho _ (.inl rfl) rfl) hdistinct.2.1.1
  · rw [hwaiting]
    exact append_nil _

lemma PhaseCore.releaseWrite (hwriter : s.writerOwner = some owner) :
    PhaseCore { s with writer := false, writerOwner := none } (h ++ [.released owner true]) := by
  refine hc.event hc.total hc.positive rfl (by simp) ?_ (fun _ => rfl) (fun _ => rfl)
    hc.distinct (fun o ho => ⟨(hc.patient o ho).1, by simp⟩) (append_nil _) (by simp) (by simp)
  simp [hwriter]

end

lemma PhaseState.removeReader_some (hremove : s.removeReader owner = some s') :
    ∃ n, s.readerOwners.lookup owner = some (n + 1) ∧ s' = { s with
      readers := s.readers - 1
      readerOwners :=
        if n + 1 = 1 then s.readerOwners.erase owner else s.readerOwners.insert owner n } := by
  unfold removeReader at hremove
  split at hremove
  · cases hremove
  next count hlookup =>
    split at hremove
    · cases hremove
    next hpos =>
      obtain ⟨n, rfl⟩ : ∃ n, count = n + 1 := ⟨count - 1, by omega⟩
      exact ⟨n, hlookup, (some.inj hremove).symm⟩

section Remove

variable {m : CountMap OwnerId} {owner : OwnerId} {n : Nat}

lemma count_removeReader (hlookup : m.lookup owner = some (n + 1)) (o : OwnerId) :
    CountMap.count (if n + 1 = 1 then m.erase owner else m.insert owner n) o +
      (if owner = o then 1 else 0) = m.count o := by
  have hcount : m.count owner = n + 1 := by
    unfold CountMap.count
    rw [hlookup, getD_some]
  by_cases ho : owner = o
  · subst ho
    split
    · rw [CountMap.count_erase_self, if_pos rfl]
      omega
    · rw [CountMap.count_insert_self, if_pos rfl, hcount]
  · split
    · exact CountMap.count_erase_of_ne m (Ne.symm ho)
    · exact CountMap.count_insert_of_ne m (Ne.symm ho) n

lemma total_removeReader (hlookup : m.lookup owner = some (n + 1)) :
    CountMap.total (if n + 1 = 1 then m.erase owner else m.insert owner n) = m.total - 1 := by
  have hcount : m.count owner = n + 1 := by
    unfold CountMap.count
    rw [hlookup, getD_some]
  split
  · have := m.total_eq_count_add_erase owner
    omega
  · have := m.total_insert owner n
    omega

lemma positive_removeReader (hm : ∀ o, m.lookup o ≠ some 0) (owner : OwnerId) (n : Nat)
    (o : OwnerId) : (if n + 1 = 1 then m.erase owner else m.insert owner n).lookup o ≠ some 0 := by
  split
  next =>
    by_cases ho : o = owner
    · subst ho
      simp
    · rw [AList.lookup_erase_ne ho]
      exact hm o
  next hn =>
    obtain ⟨k, rfl⟩ : ∃ k, n = k + 1 := ⟨n - 1, by omega⟩
    exact positive_addReader hm owner k o

end Remove

lemma PhaseCore.releaseRead (hc : PhaseCore s h)
    (hremove : s.removeReader owner = some s') : PhaseCore s' (h ++ [.released owner false]) := by
  obtain ⟨n, hlookup, rfl⟩ := removeReader_some hremove
  have hremoved := count_removeReader hlookup
  have htotal := total_removeReader hlookup
  have hpositive := positive_removeReader hc.positive owner n
  refine hc.event (hc.total ▸ htotal.symm) hpositive hc.writer ?_ (by simp) (fun _ => rfl)
    (fun _ => rfl) hc.distinct (fun o ho => ?_) (append_nil _) (by simp) (by simp)
  · intro o
    simp [← hremoved o, Nat.add_comm]
  · have hold := hc.patient o ho
    have hremoved := hremoved o
    rw [hold.1] at hremoved
    exact ⟨Nat.eq_zero_of_add_eq_zero_right hremoved, hold.2⟩

/-- An entry without holders and waiters is that of an address never used. -/
lemma PhaseCore.drop (hc : PhaseCore s h) (hreaders : s.readers = 0)
    (hwriter : s.writerOwner = none) (hwaiting : s.waitingReaders = [] ∧ s.waitingWriters = []) :
    PhaseCore s (h ++ [.dropped]) := by
  refine hc.event hc.total hc.positive hc.writer (fun _ => rfl) (fun _ => rfl) (fun _ => rfl)
    (fun _ => rfl) hc.distinct hc.patient (append_nil _) (by simp) fun _ o w => ?_
  refine ⟨hc.holds_zero hreaders hwriter o w, ?_⟩
  cases w with
  | false => rw [hc.waits_read, hwaiting.1, count_nil]
  | true => rw [hc.waits_write, hwaiting.2, count_nil]

/-! ## Loops -/

lemma PhaseCore.admitReaders {waiting : List OwnerId}
    (hc : PhaseCore s h) (hwaiting : s.waitingReaders = waiting)
    (hadmission : admitReaders waiting s = some (s', events)) :
    PhaseCore s' (h ++ events) ∧ events = waiting.map (.signaled · false) ∧
      s'.waitingReaders = [] ∧ s'.waitingWriters = s.waitingWriters ∧ s'.writer = s.writer ∧
      s'.writerOwner = s.writerOwner ∧ s'.readers = s.readers + waiting.length := by
  -- each turn of the loop is the admission of the first queued reader
  induction waiting generalizing s h s' events with
  | nil =>
    cases hadmission
    exact ⟨by rwa [append_nil], rfl, hwaiting, rfl, rfl, rfl, rfl⟩
  | cons owner rest ih =>
    unfold admitReaders at hadmission
    split at hadmission
    · cases hadmission
    next s₁ hadd =>
      split at hadmission
      · cases hadmission
      next s₂ events₂ hrest =>
        cases hadmission
        have hc₁ := hc.signalRead hwaiting hadd
        have hs₁ := addReader_some hadd
        obtain ⟨hcore, hevents, hr, hw, hwriter, howner, hcount⟩ :=
          ih hc₁ (by rw [hs₁]) hrest
        refine ⟨by simpa using hcore, by rw [hevents, map_cons], hr, ?_, ?_, ?_, ?_⟩
        · rw [hw, hs₁]
        · rw [hwriter, hs₁]
        · rw [howner, hs₁]
        · rw [hcount, hs₁, length_cons]
          show s.readers + 1 + rest.length = _
          omega

/-- The end of a release without a writer: the first queued writer is admitted if no reader is
left. -/
structure PhaseAdmission (s s' : PhaseState) (h events : List PhaseEvent) : Prop where
  core : PhaseCore s' (h ++ events)
  readers : s'.readers = s.readers
  waiting : s'.waitingReaders = s.waitingReaders
  unqueued : ∀ o, queued o false ∉ events
  admitted : (admittedWriters events).length = if s'.writer then 1 else 0
  exclusive : s'.writer = true → s'.readers = 0
  held : s'.waitingWriters ≠ [] → s'.writer = true ∨ 0 < s'.readers
  blocking : s.waitingWriters ≠ [] → s'.writer = true ∨ s'.waitingWriters ≠ []

lemma PhaseCore.admission (hc : PhaseCore s h) (howner : s.writerOwner = none)
    (hadmission : (if s.readers = 0 then s.admitWriter else (s, [])) = (s', events)) :
    PhaseAdmission s s' h events := by
  have hwriter : s.writer = false := by rw [hc.writer, howner, isSome_none]
  -- nothing changes while there are readers, or without a queued writer
  have hsame (hheld : s.waitingWriters ≠ [] → 0 < s.readers) : PhaseAdmission s s h [] :=
    { core := by rwa [append_nil]
      readers := rfl
      waiting := rfl
      unqueued := fun o => not_mem_nil
      admitted := by rw [hwriter]; rfl
      exclusive := by simp [hwriter]
      held := fun hne => .inr (hheld hne)
      blocking := .inr }
  split at hadmission
  next hreaders =>
    unfold admitWriter at hadmission
    split at hadmission
    next hwaiting =>
      obtain ⟨rfl, rfl⟩ := Prod.mk.inj hadmission
      exact hsame fun hne => absurd hwaiting hne
    next owner rest hwaiting =>
      obtain ⟨rfl, rfl⟩ := Prod.mk.inj hadmission
      exact
        { core := hc.signalWrite hreaders howner hwaiting
          readers := rfl
          waiting := rfl
          unqueued := by simp
          admitted := rfl
          exclusive := fun _ => hreaders
          held := fun _ => .inl rfl
          blocking := fun _ => .inl rfl }
  next hreaders =>
    obtain ⟨rfl, rfl⟩ := Prod.mk.inj hadmission
    exact hsame fun _ => Nat.pos_of_ne_zero hreaders

end Core

/-! ## Between critical sections -/

structure PhaseInv (s : PhaseState) (h : List PhaseEvent) : Prop extends PhaseCore s h where
  exclusive : s.writer = true → s.readers = 0
  blocked : s.waitingReaders ≠ [] → s.writer = true ∨ s.waitingWriters ≠ []
  held : s.waitingWriters ≠ [] → s.writer = true ∨ 0 < s.readers
  phase : ∀ h₁ o h₂, h = h₁ ++ .queued o false :: h₂ → .signaled o false ∉ h₂ →
    o ∈ s.waitingReaders ∧ (admittedWriters h₂).length ≤ if s.writer then 1 else 0

variable {key : Nat} {t t' : PhaseTable} {sys : PhaseSystem}

section Inv

variable {s s' : PhaseState} {h events : List PhaseEvent} {result write : Bool}

/-- Readers that stay in the queue see at most the writer that has been admitted. -/
lemma PhaseInv.phase_append (hi : PhaseInv s h) (hunqueued : ∀ o, .queued o false ∉ events)
    (hstays : ∀ o ∈ s.waitingReaders, .signaled o false ∉ events → o ∈ s'.waitingReaders ∧
      (if s.writer then 1 else 0) + (admittedWriters events).length ≤
        if s'.writer then 1 else 0) :
    ∀ h₁ o h₂, h ++ events = h₁ ++ .queued o false :: h₂ → .signaled o false ∉ h₂ →
      o ∈ s'.waitingReaders ∧ (admittedWriters h₂).length ≤ if s'.writer then 1 else 0 := by
  intro h₁ o h₂ heq hunsignaled
  rcases append_eq_append_iff.1 heq with ⟨t, -, ht⟩ | ⟨t, ht, ht₂⟩
  · -- the reader would be queued by the new events
    exact absurd (ht ▸ mem_append_right t mem_cons_self) (hunqueued o)
  cases t with
  | nil =>
    have hmem : queued o false ∈ events := by
      rw [nil_append] at ht₂
      rw [← ht₂]
      exact mem_cons_self
    exact absurd hmem (hunqueued o)
  | cons e t =>
    rw [cons_append] at ht₂
    obtain ⟨rfl, rfl⟩ := cons.inj ht₂
    rw [mem_append, not_or] at hunsignaled
    obtain ⟨hmem, hle⟩ := hi.phase h₁ o t ht hunsignaled.1
    obtain ⟨hmem', hle'⟩ := hstays o hmem hunsignaled.2
    refine ⟨hmem', ?_⟩
    rw [admittedWriters_append, length_append]
    omega

lemma PhaseInv.default : PhaseInv .default [] where
  total := rfl
  positive o := by simp [PhaseState.default]
  writer := rfl
  readHolds o := rfl
  writeHolds o := rfl
  readWaits o := rfl
  writeWaits o := rfl
  distinct := nodup_nil
  patient o ho := by cases ho
  order := rfl
  admitted h₁ e h₂ owner heq := by simp at heq
  dropped h₁ h₂ heq := by simp at heq
  exclusive := nofun
  blocked := fun hne => absurd rfl hne
  held := fun hne => absurd rfl hne
  phase h₁ o h₂ heq := by simp at heq

/-- An entry that is settled keeps the invariant, in the table or out of it. -/
lemma PhaseInv.settle {out : List PhaseEvent} (hi : PhaseInv s (h ++ events))
    (hsettle : t.settle key s events = .done t' result out) :
    ∃ new, t' = update t key new ∧ PhaseInv (new.getD .default) (h ++ out) := by
  unfold PhaseTable.settle at hsettle
  split at hsettle
  next hempty =>
    split at hsettle
    · cases hsettle
    next howners =>
      obtain ⟨rfl, -, rfl⟩ := done.inj hsettle
      simp only [Bool.and_eq_true, Bool.not_eq_true', beq_iff_eq] at hempty
      simp only [Bool.or_eq_true, Bool.not_eq_true', not_or, Bool.not_eq_false,
        List.isEmpty_iff, Bool.not_eq_true, isSome_eq_false_iff,
        isNone_iff_eq_none] at howners
      have hwriters : s.waitingWriters = [] := by
        by_contra hne
        rcases hi.held hne with hw | hr
        · rw [hempty.1] at hw
          cases hw
        · omega
      have hreaders : s.waitingReaders = [] := by
        by_contra hne
        rcases hi.blocked hne with hw | hw
        · rw [hempty.1] at hw
          cases hw
        · exact hw hwriters
      have hdefault : s = .default := by
        obtain ⟨readers, writer, owners, writerOwner, waitingReaders, waitingWriters⟩ := s
        simp only at hempty howners hwriters hreaders
        have hmap : owners = ∅ := AList.ext howners.2
        rw [hempty.1, hempty.2, howners.1, hwriters, hreaders, hmap]
        rfl
      have hcore := hi.toPhaseCore.drop hempty.2 howners.1 ⟨hreaders, hwriters⟩
      rw [append_assoc] at hcore
      refine ⟨none, rfl, ?_⟩
      subst hdefault
      refine { hcore with
        exclusive := hi.exclusive, blocked := hi.blocked, held := hi.held, phase := ?_ }
      rw [← append_assoc]
      exact hi.phase_append (by simp) (fun o ho => absurd ho not_mem_nil)
  next =>
    obtain ⟨rfl, -, rfl⟩ := done.inj hsettle
    exact ⟨some s, rfl, hi⟩

/-- Phases count writers only, and readers of the queue stay in it: the events of `acquire`. -/
lemma PhaseInv.phase_acquire (hi : PhaseInv s h) (hunqueued : ∀ o, e ≠ .queued o false)
    (hadmitted : s.waitingReaders ≠ [] →
      (if s.writer then 1 else 0) + (admittedWriters [e]).length ≤ if s'.writer then 1 else 0)
    (hwaiting : s'.waitingReaders = s.waitingReaders) :
    ∀ h₁ o h₂, h ++ [e] = h₁ ++ .queued o false :: h₂ → .signaled o false ∉ h₂ →
      o ∈ s'.waitingReaders ∧ (admittedWriters h₂).length ≤ if s'.writer then 1 else 0 := by
  apply hi.phase_append
  · intro o ho
    exact hunqueued o (mem_singleton.1 ho).symm
  · intro o ho _
    exact ⟨hwaiting ▸ ho, hadmitted (ne_nil_of_mem ho)⟩

/-- A request that may be queued is one of an owner that does not hold the lock. -/
lemma PhaseCore.not_holder (hc : PhaseCore s h)
    (hself : s.wouldSelfDeadlock owner write = false) (hbusy : s.available write = false)
    (hexclusive : s.writer = true → s.readers = 0) :
    s.readerOwners.count owner = 0 ∧ s.writerOwner ≠ some owner := by
  simp only [wouldSelfDeadlock, Bool.or_eq_false_iff, beq_eq_false_iff_ne] at hself
  refine ⟨?_, hself.1.1⟩
  by_contra hcount
  have hsome : (s.readerOwners.lookup owner).isSome = true := by
    rw [isSome_iff_ne_none]
    intro hnone
    exact hcount (by rw [CountMap.count, hnone, getD_none])
  have hread : write = false := by simpa [hsome] using hself.1.2
  -- a reader waits only for a writer, and here no writer holds the lock or is queued
  have hqueue : s.waitingWriters = [] := by simpa [hread, hsome] using hself.2
  have hwriter : s.writer = false := by
    by_contra hw
    have := s.readerOwners.count_le_total owner
    rw [← hc.total, hexclusive (by simpa using hw)] at this
    omega
  simp [available, hread, hwriter, hqueue] at hbusy

lemma PhaseInv.acquire {blocking : Bool} (hi : PhaseInv ((t key).getD .default) h)
    (hawake : owner ∉ ((t key).getD .default).waitingReaders ++
      ((t key).getD .default).waitingWriters)
    (hacquire : t.acquire key owner write blocking = .done t' result events) :
    ∃ new, t' = update t key new ∧ PhaseInv (new.getD .default) (h ++ events) := by
  unfold PhaseTable.acquire at hacquire
  generalize (t key).getD .default = s at hi hawake hacquire
  split at hacquire
  · cases hacquire
  simp only at hacquire
  split at hacquire
  · cases hacquire
  next hself =>
    split at hacquire
    next havailable =>
      simp only [available, Bool.and_eq_true, Bool.not_eq_true', List.isEmpty_iff] at havailable
      obtain ⟨⟨hwriter, hqueue⟩, hfree⟩ := havailable
      have howner : s.writerOwner = none := by
        rw [← isNone_iff_eq_none, ← not_isSome, ← hi.writer, hwriter]
        rfl
      have hnoReaders : s.waitingReaders = [] := by
        by_contra hne
        rcases hi.blocked hne with hw | hw
        · rw [hwriter] at hw
          cases hw
        · exact hw hqueue
      split at hacquire
      next hwrite =>
        obtain ⟨rfl, -, rfl⟩ := done.inj hacquire
        have hreaders : s.readers = 0 := by simpa [hwrite] using hfree
        refine ⟨_, rfl, ?_⟩
        exact
          { hi.toPhaseCore.enterWrite hreaders howner hqueue
              (fun hmem => hawake (List.mem_append_left _ hmem)) with
            exclusive := fun _ => hreaders
            blocked := fun _ => .inl rfl
            held := fun _ => .inl rfl
            phase := hi.phase_acquire (by simp) (absurd hnoReaders) rfl }
      next hread =>
        split at hacquire
        next s' hadd =>
          obtain ⟨rfl, -, rfl⟩ := done.inj hacquire
          have hcore := hi.toPhaseCore.enterRead hadd hawake
          have hs' := addReader_some hadd
          refine ⟨_, rfl, ?_⟩
          exact
            { hcore with
              exclusive := fun hw => by rw [hs'] at hw; simp [hwriter] at hw
              blocked := fun hne => by rw [hs'] at hne; exact absurd hnoReaders hne
              held := fun _ => .inr (by rw [hs']; exact Nat.succ_pos _)
              phase := hi.phase_acquire (by simp) (absurd hnoReaders) (hs' ▸ rfl) }
        · cases hacquire
    next hbusy =>
      split at hacquire
      next =>
        obtain ⟨rfl, -, rfl⟩ := done.inj hacquire
        refine ⟨_, rfl, ?_⟩
        rw [append_nil]
        exact hi
      next hblocking =>
        have hblocking : blocking = true := by simpa using hblocking
        have hself : s.wouldSelfDeadlock owner write = false := by simpa [hblocking] using hself
        have hholds := hi.toPhaseCore.not_holder hself (by simpa using hbusy) hi.exclusive
        split at hacquire
        next hwrite =>
          obtain ⟨rfl, -, rfl⟩ := done.inj hacquire
          refine ⟨_, rfl, ?_⟩
          exact
            { hi.toPhaseCore.queueWrite hawake hholds with
              exclusive := hi.exclusive
              blocked := fun _ => .inr (by simp)
              held := fun _ => by
                -- the lock was not free for a writer
                by_cases hqueue : s.waitingWriters = []
                · simp only [available, hwrite, hqueue] at hbusy
                  by_cases hw : s.writer = true
                  · exact .inl hw
                  · exact .inr (Nat.pos_of_ne_zero (by simpa [hw] using hbusy))
                · exact hi.held hqueue
              phase := hi.phase_acquire (by simp) (fun _ => le_rfl) rfl }
        next hread =>
          obtain ⟨rfl, -, rfl⟩ := done.inj hacquire
          refine ⟨_, rfl, ?_⟩
          exact
            { hi.toPhaseCore.queueRead hawake hholds with
              exclusive := hi.exclusive
              blocked := fun _ => by
                by_contra hfree
                exact hbusy (by simpa [available, hread] using hfree)
              held := hi.held
              phase := fun h₁ o h₂ heq hunsignaled => by
                rcases append_singleton_eq heq with ⟨t, ht, rfl⟩ | ⟨-, he, rfl⟩
                · rw [mem_append, not_or] at hunsignaled
                  obtain ⟨hmem, hle⟩ := hi.phase h₁ o t ht hunsignaled.1
                  refine ⟨List.mem_append_left _ hmem, ?_⟩
                  rw [admittedWriters_append, length_append]
                  exact hle
                · obtain ⟨rfl, -⟩ := queued.inj he
                  exact ⟨mem_append_right _ mem_cons_self, Nat.zero_le _⟩ }

lemma PhaseInv.release (hi : PhaseInv ((t key).getD .default) h)
    (hrelease : t.release key owner write = .done t' result events) :
    ∃ new, t' = update t key new ∧ PhaseInv (new.getD .default) (h ++ events) := by
  unfold PhaseTable.release at hrelease
  split at hrelease
  · cases hrelease
  split at hrelease
  · cases hrelease
  next s hentry =>
    rw [hentry, getD_some] at hi
    split at hrelease
    next =>
      split at hrelease
      · cases hrelease
      next hguard =>
        simp only [Bool.or_eq_true, bne_iff_ne, not_or, not_not] at hguard
        obtain ⟨⟨hwriter, howner⟩, hreaders⟩ := hguard
        dsimp only at hrelease
        split at hrelease
        · cases hrelease
        next s₁ signals hloop =>
          obtain ⟨hcore, hsignals, hwaiting, hqueue, hwriter₁, howner₁, -⟩ :=
            (hi.toPhaseCore.releaseWrite howner).admitReaders rfl hloop
          generalize hadmission : (if s₁.readers = 0 then s₁.admitWriter else (s₁, [])) =
            r at hrelease
          obtain ⟨s₂, admitted⟩ := r
          have ha := hcore.admission howner₁ hadmission
          have hevents : h ++ [.released owner true] ++ signals ++ admitted =
              h ++ (.released owner true :: signals ++ admitted) := by simp
          refine PhaseInv.settle ?_ hrelease
          exact
            { (hevents ▸ ha.core : PhaseCore s₂ _) with
              exclusive := ha.exclusive
              blocked := fun hne => absurd (ha.waiting.trans hwaiting) hne
              held := ha.held
              phase := by
                apply hi.phase_append
                · intro o ho
                  simp only [cons_append, mem_cons, mem_append, hsignals, List.mem_map] at ho
                  rcases ho with ho | ⟨_, _, ho⟩ | ho
                  · cases ho
                  · cases ho
                  · exact ha.unqueued o ho
                · -- every queued reader has been admitted
                  intro o ho hunsignaled
                  refine absurd ?_ hunsignaled
                  rw [hsignals]
                  exact mem_append_left _
                    (mem_cons_of_mem _ (mem_map.2 ⟨o, ho, rfl⟩)) }
    next =>
      split at hrelease
      · cases hrelease
      next hwriter =>
        split at hrelease
        · cases hrelease
        next s₁ hremove =>
          have hcore := hi.toPhaseCore.releaseRead hremove
          obtain ⟨n, -, hs₁⟩ := removeReader_some hremove
          have howner : s₁.writerOwner = none := by
            rw [← isNone_iff_eq_none, ← not_isSome, ← hcore.writer, hs₁]
            simpa using hwriter
          generalize hadmission : (if s₁.readers = 0 then s₁.admitWriter else (s₁, [])) =
            r at hrelease
          obtain ⟨s₂, admitted⟩ := r
          have ha := hcore.admission howner hadmission
          have hwaiting : s₂.waitingReaders = s.waitingReaders := by
            rw [ha.waiting, hs₁]
          have hevents : h ++ [.released owner false] ++ admitted =
              h ++ (.released owner false :: admitted) := by simp
          refine PhaseInv.settle ?_ hrelease
          exact
            { (hevents ▸ ha.core : PhaseCore s₂ _) with
              exclusive := ha.exclusive
              blocked := fun hne => by
                apply ha.blocking
                rw [hs₁]
                exact (hi.blocked (hwaiting ▸ hne)).resolve_left hwriter
              held := ha.held
              phase := by
                apply hi.phase_append
                · intro o ho
                  rcases mem_cons.1 ho with ho | ho
                  · cases ho
                  · exact ha.unqueued o ho
                · -- the writer admitted here is the first since the reader was queued
                  intro o ho _
                  refine ⟨hwaiting ▸ ho, ?_⟩
                  rw [if_neg hwriter, Nat.zero_add, ← ha.admitted]
                  exact le_rfl }

end Inv

/-! ## Interleavings -/

/-- The invariant at every address. -/
def PhaseSystem.Inv (sys : PhaseSystem) : Prop :=
  ∀ key, PhaseInv ((sys.table key).getD .default) (sys.history key)

lemma PhaseSystem.Inv.update (hi : sys.Inv) {new : Option PhaseState}
    (hnew : PhaseInv (new.getD .default) (sys.history key ++ events)) :
    Inv ⟨update sys.table key new, update sys.history key (sys.history key ++ events)⟩ := by
  intro k
  by_cases hk : k = key
  · subst hk
    simpa using hnew
  · simpa [update_of_ne hk] using hi k

lemma PhaseTable.Asleep.of_mem (hmem : owner ∈ ((t key).getD .default).waitingReaders ++
      ((t key).getD .default).waitingWriters) : t.Asleep owner := by
  cases hentry : t key with
  | none =>
    rw [hentry] at hmem
    cases hmem
  | some s =>
    rw [hentry] at hmem
    exact ⟨key, s, hentry, mem_append.1 hmem⟩

lemma PhaseSystem.Inv.step {sys' : PhaseSystem} (hi : sys.Inv) (hstep : PhaseStep sys sys') :
    sys'.Inv := by
  cases hstep with
  | acquire hawake hacquire =>
    obtain ⟨new, rfl, hnew⟩ := (hi _).acquire (fun hmem => hawake (.of_mem hmem)) hacquire
    exact hi.update hnew
  | release hawake hrelease =>
    obtain ⟨new, rfl, hnew⟩ := (hi _).release hrelease
    exact hi.update hnew

lemma PhaseSystem.Inv.run (hrun : Relation.ReflTransGen PhaseStep .start sys) : sys.Inv := by
  induction hrun with
  | refl => exact fun _ => PhaseInv.default
  | tail _ hstep ih => exact ih.step hstep

section Fair

variable {s : PhaseState} {h : List PhaseEvent}

lemma PhaseInv.fair (hi : PhaseInv s h) : PhaseFair h where
  exclusive := hi.admitted
  shared o o' hread := by
    rw [hi.holds_read] at hread
    rw [hi.holds_write, if_neg]
    intro howner
    have hwriter : s.writer = true := by rw [hi.writer, howner, isSome_some]
    have hle := s.readerOwners.count_le_total o
    rw [← hi.total, hi.exclusive hwriter] at hle
    omega
  patient o w w' hwaits := by
    have hmem : o ∈ s.waitingReaders ++ s.waitingWriters := by
      cases w with
      | false =>
        rw [hi.waits_read, count_pos_iff] at hwaits
        exact mem_append_left _ hwaits
      | true =>
        rw [hi.waits_write, count_pos_iff] at hwaits
        exact mem_append_right _ hwaits
    cases w' with
    | false => rw [hi.holds_read, (hi.patient o hmem).1]
    | true => rw [hi.holds_write, if_neg (hi.patient o hmem).2]
  readers o hwaits := by
    rw [hi.waits_read, count_pos_iff] at hwaits
    rcases hi.blocked (ne_nil_of_mem hwaits) with hwriter | hqueue
    · rw [hi.writer, isSome_iff_exists] at hwriter
      obtain ⟨o', ho'⟩ := hwriter
      exact ⟨o', .inl (by rw [hi.holds_write, if_pos ho']; exact Nat.one_pos)⟩
    · obtain ⟨o', ho'⟩ := exists_mem_of_ne_nil _ hqueue
      exact ⟨o', .inr (by rw [hi.waits_write, count_pos_iff]; exact ho')⟩
  order := by
    rw [hi.order]
    exact prefix_append _ _
  phase h₁ o h₂ heq hunsignaled := by
    have hle := (hi.phase h₁ o h₂ heq hunsignaled).2
    split at hle
    · exact hle
    · exact Nat.le_succ_of_le hle
  dropped := hi.toPhaseCore.dropped

/-- The request of a holder is granted or refused at once. -/
lemma PhaseInv.acquire_holder {w : Bool}
    (hi : PhaseInv ((t key).getD .default) h) (hholds : 0 < holds h owner w)
    (write blocking : Bool) : t.acquire key owner write blocking = .aborted ∨
      ∃ table result events, t.acquire key owner write blocking = .done table result events ∧
        (result = true ∧ events = [.entered owner write] ∨ result = false ∧ events = []) := by
  generalize hr : t.acquire key owner write blocking = r
  unfold PhaseTable.acquire at hr
  generalize (t key).getD .default = s at hi hr
  have hholder : ¬ (s.readerOwners.count owner = 0 ∧ s.writerOwner ≠ some owner) := by
    intro hnone
    cases w with
    | false =>
      rw [hi.holds_read] at hholds
      omega
    | true =>
      rw [hi.holds_write, if_neg hnone.2] at hholds
      omega
  split at hr
  · exact .inl hr.symm
  dsimp only at hr
  split at hr
  · exact .inl hr.symm
  next hself =>
    split at hr
    · split at hr
      next hwrite => exact .inr ⟨_, _, _, hr.symm, .inl ⟨rfl, by rw [hwrite]⟩⟩
      next hread =>
        split at hr
        · exact .inr ⟨_, _, _, hr.symm, .inl ⟨rfl, by rw [Bool.eq_false_iff.2 hread]⟩⟩
        · exact .inl hr.symm
    next hbusy =>
      split at hr
      · exact .inr ⟨_, _, _, hr.symm, .inr ⟨rfl, rfl⟩⟩
      next hblocking =>
        have hblocking : blocking = true := by simpa using hblocking
        have hself : s.wouldSelfDeadlock owner write = false := by simpa [hblocking] using hself
        exact absurd (hi.toPhaseCore.not_holder hself (by simpa using hbusy) hi.exclusive) hholder

end Fair

/-- Along every interleaving of lock calls the lock is exclusive and phase-fair at each address:
its events are those of a fair lock, its reader count is the sum of the counts of the owners, a
holder is never queued behind itself, and an address without an entry is one that nobody holds or
waits for. -/
theorem phaseLock_fair {sys : PhaseSystem} (hrun : Relation.ReflTransGen PhaseStep .start sys)
    (key : Nat) : PhaseFair (sys.history key) ∧
      (∀ s, sys.table key = some s → s.readers = s.readerOwners.total) ∧
      (∀ owner w, 0 < holds (sys.history key) owner w → ∀ write blocking,
        sys.table.acquire key owner write blocking = .aborted ∨ ∃ table result events,
            sys.table.acquire key owner write blocking = .done table result events ∧
              (result = true ∧ events = [.entered owner write] ∨ result = false ∧ events = [])) ∧
      (sys.table key = none →
        ∀ o w, holds (sys.history key) o w = 0 ∧ waits (sys.history key) o w = 0) := by
  have hi := Inv.run hrun key
  refine ⟨hi.fair, ?_, ?_, ?_⟩
  · intro s hentry
    rw [hentry] at hi
    exact hi.total
  · intro owner w hholds
    exact hi.acquire_holder hholds
  · intro hnone o w
    rw [hnone] at hi
    refine ⟨hi.holds_zero rfl rfl o w, ?_⟩
    cases w with
    | false => rw [hi.waits_read]; rfl
    | true => rw [hi.waits_write]; rfl

lemma PhaseTable.Asleep.update (hold : ¬ t.Asleep owner)
    (hnew : owner ∉ s.waitingReaders ++ s.waitingWriters) :
    ¬ Asleep (update t key (some s)) owner := by
  rintro ⟨k, s', hentry, hmem⟩
  by_cases hk : k = key
  · subst hk
    rw [update_self] at hentry
    cases hentry
    exact hnew (mem_append.2 hmem)
  · rw [update_of_ne hk] at hentry
    exact hold ⟨k, s', hentry, hmem⟩

/-- A writer, a reader that waits for it, and the release that admits the reader. -/
theorem phaseLock_fair_handover :
    PhaseFair [.entered 1 true, .queued 2 false, .released 1 true, .signaled 2 false] := by
  let s₁ : PhaseState := { default with writer := true, writerOwner := some 1 }
  let s₂ : PhaseState := { s₁ with waitingReaders := [2] }
  let t₁ : PhaseTable := update (fun _ => none) 8 (some s₁)
  let t₂ : PhaseTable := update t₁ 8 (some s₂)
  have hawake (o : OwnerId) : ¬ start.table.Asleep o := by
    rintro ⟨key, s, hentry, -⟩
    cases hentry
  have hstep₁ : start.table.acquire 8 1 true true = .done t₁ true [.entered 1 true] :=
    rfl
  have hstep₂ : t₁.acquire 8 2 false true = .done t₂ true [.queued 2 false] := rfl
  have hstep₃ : t₂.release 8 1 true = .done (update t₂ 8 (some
      { default with readers := 1, readerOwners := (∅ : CountMap OwnerId).insert 2 1 }))
      true [.released 1 true, .signaled 2 false] := rfl
  have hrun := ((Relation.ReflTransGen.single (acquire (hawake 1) hstep₁)).tail
    (acquire (Asleep.update (hawake 2) (by decide)) hstep₂)).tail
    (release (Asleep.update (Asleep.update (hawake 1) (by decide))
      (by decide)) hstep₃)
  exact (phaseLock_fair hrun 8).1

end Arandu.Runtime
