import Arandu.Runtime.GenRef

/-!
# Generational arenas never confuse handles

An arena means a partial function from slot and generation to values, a registry one from handles
to values. Each operation changes these as its name says, or fails and changes nothing; a handle
that has been issued names a generation its slot has come to (`Passed`), a new one does not.
-/

namespace Arandu.Runtime

open Arandu.Library List Function ArenaRegistry Arena ValueSlot GenRef

variable {T : Type}

variable {limit : Nat}

lemma nextGeneration_of_lt {current : Nat} (hlimit : limit < 2 ^ 32) (h : current < limit) :
    nextGeneration current limit = .ok (current + 1) := by
  rw [nextGeneration, if_pos (by omega)]

/-- Free lists are too short for their reservation to overflow. -/
lemma reserveOne_index {len : Nat} (h : len ≤ 2 ^ 32) (alloc : Bool) :
    reserveOne 4 len alloc = if alloc then .ok () else .error .allocationFailed := by
  rw [reserveOne, if_neg (by omega), if_neg (by omega)]

/-! ## One arena -/

@[simp]
def ValueSlot.isVacant (s : ValueSlot T) : Prop := s.state matches .vacant

/-- Where the value of a handle is in its arena. -/
abbrev GenRef.value (h : GenRef) : Nat × Nat := (h.valueSlot, h.valueGeneration)

variable {h : GenRef} {free : List Nat} {s : ValueSlot T} {v : T}

namespace Arena

/-- The live values, by slot and generation. -/
def bindings (a : Arena T) (p : Nat × Nat) : Option T :=
  match a.slots[p.1]? with
  | some ⟨generation, .occupied value⟩ => if generation = p.2 then some value else none
  | _ => none

def passed (a : Arena T) (p : Nat × Nat) : Prop := Passed generation a.slots p.1 p.2

structure Inv (a : Arena T) : Prop where
  limit : a.generationLimit < 2 ^ 32
  positive : 0 < a.generationLimit
  length : a.slots.length ≤ 2 ^ 32
  slots : Generational generation isVacant a.generationLimit a.slots a.free

variable {a : Arena T} {state : ValueState T}

lemma inv_new (hlimit : limit < 2 ^ 32) (hpos : 0 < limit) : (new limit : Arena T).Inv :=
  ⟨hlimit, hpos, Nat.zero_le _, .nil⟩

lemma bindings_new (limit : Nat) (p : Nat × Nat) : (new limit : Arena T).bindings p = none :=
  rfl

lemma bindings_eq_some {p : Nat × Nat} :
    a.bindings p = some v ↔ a.slots[p.1]? = some ⟨p.2, .occupied v⟩ := by
  unfold bindings
  split
  next generation value hslot =>
    rw [hslot]
    by_cases hg : generation = p.2
    · simp
    · simp
  next hslot =>
    constructor
    · intro h
      cases h
    · intro h
      exact absurd h (hslot p.2 v)

/-- One slot gets a new content; its old occupant, if there is one, has the same generation. -/
lemma bindings_set {i g : Nat} (hs : a.slots[i]? = some s)
    (hold : ∀ v, s.state = .occupied v → s.generation = g) :
    (mk (a.slots.set i ⟨g, state⟩) free limit).bindings =
      update a.bindings (i, g) (match state with | .occupied w => some w | _ => none) := by
  funext p
  rw [Option.ext_iff]
  intro v
  rw [bindings_eq_some, getElem?_set_of_some hs]
  by_cases hp : p = (i, g)
  · subst hp
    cases state <;> simp
  rw [update_of_ne hp, bindings_eq_some]
  split
  next hpi =>
    have hne : g ≠ p.2 := fun heq => hp (Prod.ext hpi.symm heq.symm)
    rw [← hpi, hs]
    obtain ⟨g', state'⟩ := s
    simp only [Option.some.injEq, ValueSlot.mk.injEq, hne, false_and, false_iff]
    rintro ⟨rfl, hstate⟩
    exact hne (hold v hstate).symm
  next => rfl

/-- What every operation on an arena keeps. -/
structure Step (a a' : Arena T) : Prop where
  inv : a'.Inv
  limit : a'.generationLimit = a.generationLimit
  passed : ∀ p, a.passed p → a'.passed p

lemma Inv.setState (hinv : a.Inv) {i : Nat} (hs : a.slots[i]? = some s)
    (hslots : Generational generation isVacant a.generationLimit
      (a.slots.set i ⟨s.generation, state⟩) free) :
    Step a { a with slots := a.slots.set i ⟨s.generation, state⟩, free := free } where
  inv := ⟨hinv.limit, hinv.positive, by simpa using hinv.length, hslots⟩
  limit := rfl
  passed p hp := Passed.set hp hs (Nat.le_refl _)

lemma insert_cases (hinv : a.Inv) (lay : GenLayout) (id : ArenaId) (v : T) (alloc : Bool) :
    (∃ e, a.insert lay id v alloc = (a, .error e)) ∨
      ∃ a' i g, a.insert lay id v alloc = (a', .ok (makeHandle id i g)) ∧ Step a a' ∧
        ¬ a.passed (i, g) ∧ a'.passed (i, g) ∧ a'.bindings = update a.bindings (i, g) (some v) := by
  have hslots := hinv.slots
  cases hfree : a.free with
  | cons i free =>
    -- a vacant slot gets its next generation
    rw [hfree] at hslots
    obtain ⟨s, hs, hvacant, hlt⟩ := hslots.get
    have hnot : ¬ a.passed (i, s.generation + 1) := by
      intro ⟨u, hu, hle⟩
      cases hs.symm.trans hu
      exact Nat.not_succ_le_self _ hle
    have hinsert : a.insert lay id v alloc =
        ({ a with slots := a.slots.set i ⟨s.generation + 1, .occupied v⟩, free := free },
          .ok (makeHandle id i (s.generation + 1))) := by
      simp only [insert, hfree, hs, nextGeneration_of_lt hinv.limit hlt]
    refine .inr ⟨_, i, s.generation + 1, hinsert, ⟨⟨hinv.limit, hinv.positive, ?_, ?_⟩, rfl, ?_⟩,
      hnot, ?_, ?_⟩
    · simpa using hinv.length
    · exact hslots.take (by simp) hlt
    · exact fun p hp => Passed.set hp hs (Nat.le_succ _)
    · exact ⟨_, getElem?_set_at hs, Nat.le_refl _⟩
    · refine bindings_set hs fun v hv => ?_
      simp [hv] at hvacant
  | nil =>
    by_cases hroom : 2 ^ 32 ≤ a.slots.length
    · exact .inl ⟨.capacityOverflow, by simp only [insert, hfree, if_pos hroom]⟩
    cases hreserve : reserveOne lay.valueSlot a.slots.length alloc with
    | error e => exact .inl ⟨e, by simp only [insert, hfree, if_neg hroom, hreserve]⟩
    | ok u =>
      have hnot : ¬ a.passed (a.slots.length, 1) := by
        intro ⟨u, hu, _⟩
        exact absurd (lt_of_getElem? hu) (Nat.lt_irrefl _)
      have hinsert : a.insert lay id v alloc =
          ({ a with slots := a.slots ++ [⟨1, .occupied v⟩] },
            .ok (makeHandle id a.slots.length 1)) := by
        simp only [insert, hfree, if_neg hroom, hreserve]
      refine .inr ⟨_, a.slots.length, 1, hinsert, ⟨⟨hinv.limit, hinv.positive, ?_, ?_⟩, rfl, ?_⟩,
        hnot, ?_, ?_⟩
      · simp only [length_append, length_singleton]
        omega
      · exact hslots.append (by simp) hinv.positive
      · exact fun p hp => Passed.append hp _
      · exact ⟨⟨1, .occupied v⟩, by simp, Nat.le_refl _⟩
      · funext p
        by_cases hp : p = (a.slots.length, 1)
        · subst hp
          simp [bindings]
        rw [update_of_ne hp, Option.ext_iff]
        intro w
        rw [bindings_eq_some, bindings_eq_some]
        refine ⟨fun hw => ?_, getElem?_concat_old⟩
        rcases getElem?_concat_cases hw with hold | ⟨hp1, hp2⟩
        · exact hold
        · exact absurd (Prod.ext hp1 (ValueSlot.mk.inj hp2).1.symm) hp

lemma get_eq_ok : a.get h = .ok v ↔ a.bindings h.value = some v := by
  rw [bindings_eq_some]
  unfold get valueSlot
  cases hs : a.slots[h.valueSlot]? with
  | none => simp
  | some s =>
    obtain ⟨g, state⟩ := s
    by_cases hg : g = h.valueGeneration
    · cases state <;> simp [hg]
    · simp [hg]

lemma stale_of_unbound (hb : a.bindings h.value = none) (write : T → T) (alloc : Bool) :
    a.getMut h write = (a, .error .stale) ∧ a.remove h alloc = (a, .error .stale) := by
  unfold getMut remove
  cases hs : a.slots[h.valueSlot]? with
  | none => exact ⟨rfl, rfl⟩
  | some s =>
    obtain ⟨g, state⟩ := s
    by_cases hg : g = h.valueGeneration
    · subst hg
      cases state with
      | vacant | retired => simp
      | occupied v => cases hb.symm.trans (bindings_eq_some.2 hs)
    · simp [hg]

lemma getMut_cases (hinv : a.Inv) (h : GenRef) (write : T → T) :
    (a.bindings h.value = none ∧ ∃ e, a.getMut h write = (a, .error e)) ∨
      ∃ a' v, a.bindings h.value = some v ∧
        a.getMut h write = (a', .ok v) ∧ Step a a' ∧ a'.bindings =
          update a.bindings h.value (some (write v)) := by
  cases hb : a.bindings h.value with
  | none => exact .inl ⟨rfl, _, (stale_of_unbound hb write true).1⟩
  | some v =>
    have hs := bindings_eq_some.1 hb
    have hle : h.valueGeneration ≤ a.generationLimit := hinv.slots.bounded hs
    refine .inr ⟨{ a with
      slots := a.slots.set h.valueSlot ⟨h.valueGeneration, .occupied (write v)⟩ }, v, rfl,
      by simp [getMut, hs], ?_, bindings_set hs fun _ _ => rfl⟩
    exact hinv.setState hs (hinv.slots.keep hs (by simp) (by simp) hle)

lemma remove_cases (hinv : a.Inv) (h : GenRef) (alloc : Bool) :
    (a.bindings h.value = none ∧ ∃ e, a.remove h alloc = (a, .error e)) ∨
      (h.valueGeneration ≠ a.generationLimit ∧ alloc = false ∧
        a.remove h alloc = (a, .error .allocationFailed)) ∨ ∃ a' v, a.bindings h.value = some v ∧
        (h.valueGeneration = a.generationLimit ∨ alloc = true) ∧
        a.remove h alloc = (a', .ok v) ∧ Step a a' ∧
        a'.bindings = update a.bindings h.value none := by
  cases hb : a.bindings h.value with
  | none => exact .inl ⟨rfl, _, (stale_of_unbound hb id alloc).2⟩
  | some v =>
    have hs := bindings_eq_some.1 hb
    refine .inr ?_
    have hle : h.valueGeneration ≤ a.generationLimit := hinv.slots.bounded hs
    by_cases hretire : h.valueGeneration = a.generationLimit
    · -- the slot has had its last occupant
      refine .inr ⟨{ a with slots := a.slots.set h.valueSlot ⟨h.valueGeneration, .retired⟩ }, v,
        rfl, .inl hretire, by simp [remove, hs, hretire], ?_, bindings_set hs fun _ _ => rfl⟩
      exact hinv.setState hs (hinv.slots.keep hs (by simp) (by simp) hle)
    · have hlen := Nat.le_trans hinv.slots.list.length_le hinv.length
      cases alloc with
      | false =>
        exact .inl ⟨hretire, rfl, by simp [remove, hs, hretire, reserveOne_index hlen]⟩
      | true =>
        refine .inr ⟨{ a with
          slots := a.slots.set h.valueSlot ⟨h.valueGeneration, .vacant⟩
          free := h.valueSlot :: a.free }, v, rfl, .inr rfl,
          by simp [remove, hs, hretire, reserveOne_index hlen], ?_, bindings_set hs fun _ _ => rfl⟩
        refine hinv.setState hs (hinv.slots.release hs (by simp) (by simp) ?_)
        exact Nat.lt_of_le_of_ne hle hretire

end Arena

/-! ## The registry -/

@[simp]
def ArenaSlot.isVacant (s : ArenaSlot T) : Prop := s.state matches .vacant

variable {id : ArenaId} {a : Arena T}

namespace ArenaRegistry

/-- The value of every live handle. -/
def bindings (r : ArenaRegistry T) (h : GenRef) : Option T :=
  match r.arena h.arenaId with
  | .ok a => a.bindings (h.valueSlot, h.valueGeneration)
  | .error _ => none

/-- The handle may have been issued: its arena's slot has come to a later generation, or is still
at the handle's and the value's slot has come to the handle's generation. -/
def passed (r : ArenaRegistry T) (h : GenRef) : Prop :=
  ∃ slot, r.arenas[h.arenaSlot]? = some slot ∧
    (h.arenaGeneration < slot.generation ∨ h.arenaGeneration = slot.generation ∧
      ∀ a, slot.state = .live a → a.passed (h.valueSlot, h.valueGeneration))

structure Inv (r : ArenaRegistry T) : Prop where
  limit : r.generationLimit < 2 ^ 32
  positive : 0 < r.generationLimit
  length : r.arenas.length ≤ 2 ^ 32
  arenas : Generational ArenaSlot.generation ArenaSlot.isVacant r.generationLimit r.arenas r.free
  live : ∀ {i : Nat} {slot a}, r.arenas[i]? = some slot → slot.state = .live a →
    a.Inv ∧ a.generationLimit = r.generationLimit ∧ 0 < slot.generation

variable {r : ArenaRegistry T} {a' : Arena T} {α : Type} {result : Except GenError α}

lemma inv_withGenerationLimit (hlimit : limit < 2 ^ 32)
    (h : withGenerationLimit limit = .ok r) : r.Inv ∧ r.generationLimit = limit := by
  unfold withGenerationLimit at h
  split at h
  · cases h
  next hpos =>
    cases h
    exact ⟨⟨hlimit, Nat.pos_of_ne_zero hpos, Nat.zero_le _, .nil, nofun⟩, rfl⟩

lemma arena_eq_ok : r.arena id = .ok a ↔ r.arenas[id.slot]? = some ⟨id.generation, .live a⟩ := by
  unfold arena
  cases hs : r.arenas[id.slot]? with
  | none => simp
  | some slot =>
    obtain ⟨g, state⟩ := slot
    by_cases hg : g = id.generation
    · cases state <;> simp [hg]
    · simp [hg]

/-- What every operation on a registry keeps. -/
structure Step (r r' : ArenaRegistry T) : Prop where
  inv : r'.Inv
  limit : r'.generationLimit = r.generationLimit
  passed : ∀ h, r.passed h → r'.passed h

lemma Step.refl (hinv : r.Inv) : Step r r := ⟨hinv, rfl, fun _ h => h⟩

lemma Inv.setSlot (hinv : r.Inv) {i : Nat} {s s' : ArenaSlot T} (hs : r.arenas[i]? = some s)
    (harenas : Generational ArenaSlot.generation ArenaSlot.isVacant r.generationLimit
      (r.arenas.set i s') free) (hlive : ∀ a, s'.state = .live a →
      a.Inv ∧ a.generationLimit = r.generationLimit ∧ 0 < s'.generation)
    (hgrows : s.generation < s'.generation ∨ s.generation = s'.generation ∧
      ∀ a', s'.state = .live a' → ∃ a, s.state = .live a ∧ ∀ p, a.passed p → a'.passed p) :
    Step r { r with arenas := r.arenas.set i s', free := free } := by
  refine ⟨⟨hinv.limit, hinv.positive, by simpa using hinv.length, harenas, ?_⟩, rfl, ?_⟩
  · intro j slot a hslot hstate
    rcases getElem?_set_cases hslot with ⟨-, rfl⟩ | ⟨-, hslot⟩
    · exact hlive a hstate
    · exact hinv.live hslot hstate
  · intro h ⟨slot, hslot, hpassed⟩
    by_cases hj : h.arenaSlot = i
    · subst hj
      cases hs.symm.trans hslot
      refine ⟨s', getElem?_set_at hs, ?_⟩
      rcases hpassed with hlt | ⟨heq, hpassed⟩
      · rcases hgrows with hgrows | ⟨hgrows, -⟩
        · exact .inl (Nat.lt_trans hlt hgrows)
        · exact .inl (hgrows ▸ hlt)
      rcases hgrows with hgrows | ⟨hgrows, hkeeps⟩
      · exact .inl (heq ▸ hgrows)
      · refine .inr ⟨heq.trans hgrows, fun a' ha' => ?_⟩
        obtain ⟨a, ha, hmono⟩ := hkeeps a' ha'
        exact hmono _ (hpassed a ha)
    · exact ⟨slot, by rw [getElem?_set_ne (Ne.symm hj), hslot], hpassed⟩

lemma bindings_eq_some :
    r.bindings h = some v ↔ ∃ a, r.arenas[h.arenaSlot]? = some ⟨h.arenaGeneration, .live a⟩ ∧
      a.bindings h.value = some v := by
  unfold bindings
  split
  next a ha =>
    rw [arena_eq_ok, arenaId] at ha
    simp [ha]
  next e he =>
    simp only [reduceCtorEq, false_iff]
    rintro ⟨a, ha, -⟩
    rw [arena_eq_ok.2 ha] at he
    cases he

/-- The slot of an arena gets a new content; the old arena, if it is live, has the same
generation. -/
lemma bindings_set {i g : Nat} {s : ArenaSlot T} {state : ArenaState T}
    (hs : r.arenas[i]? = some s) (hold : ∀ a, s.state = .live a → s.generation = g) (h : GenRef) :
    ({ r with arenas := r.arenas.set i ⟨g, state⟩, free := free } : ArenaRegistry T).bindings h =
      if h.arenaId = ⟨i, g⟩ then
        (match state with
        | .live a => a.bindings h.value
        | _ => none)
      else r.bindings h := by
  rw [Option.ext_iff]
  intro v
  rw [bindings_eq_some, getElem?_set_of_some hs]
  by_cases hid : h.arenaId = ⟨i, g⟩
  · obtain ⟨rfl, rfl⟩ := ArenaId.mk.inj hid
    rw [if_pos hid]
    cases state <;> simp
  rw [if_neg hid, bindings_eq_some]
  split
  next hi =>
    have hne : g ≠ h.arenaGeneration := fun heq => hid (by rw [arenaId, hi, heq])
    rw [← hi, hs]
    obtain ⟨g', state'⟩ := s
    simp only [Option.some.injEq, ArenaSlot.mk.injEq, hne, false_and, exists_false, false_iff]
    rintro ⟨a, ⟨rfl, hstate⟩, -⟩
    exact hne (hold a hstate).symm
  next => rfl

lemma bindings_of_error {e : GenError} (he : r.arena h.arenaId = .error e) :
    r.bindings h = none := by
  rw [bindings, he]

lemma bindings_of_ok (ha : r.arena h.arenaId = .ok a) : r.bindings h = a.bindings h.value := by
  rw [bindings, ha]

/-- An operation on a live arena changes the bindings of its handles only. -/
lemma withArena_step (hinv : r.Inv) (ha : r.arena id = .ok a) (hstep : Arena.Step a a')
    (op : Arena T → Arena T × Except GenError α)
    (hop : op a = (a', result)) : ∃ r', r.withArena id op = (r', result) ∧ Step r r' ∧
      r'.arenas[id.slot]? = some ⟨id.generation, .live a'⟩ ∧ ∀ h, r'.bindings h =
        if h.arenaId = id then a'.bindings h.value else r.bindings h := by
  have hs := arena_eq_ok.1 ha
  obtain ⟨-, hlimit, hpos⟩ := hinv.live hs rfl
  refine ⟨{ r with arenas := r.arenas.set id.slot ⟨id.generation, .live a'⟩ }, ?_, ?_, ?_, ?_⟩
  · simp only [withArena, ha, hop]
  · refine hinv.setSlot hs ?_ ?_ (.inr ⟨rfl, ?_⟩)
    · exact hinv.arenas.keep hs (by simp) (by simp)
        (hinv.arenas.bounded (s := ⟨id.generation, .live a⟩) hs)
    · intro b hb
      cases hb
      exact ⟨hstep.inv, hstep.limit.trans hlimit, hpos⟩
    · intro b hb
      cases hb
      exact ⟨a, rfl, hstep.passed⟩
  · exact getElem?_set_at hs
  · exact bindings_set hs fun _ _ => rfl

lemma bindings_update {r' : ArenaRegistry T}
    {o : Option T} (ha : r.arena h.arenaId = .ok a) (hr' : ∀ k : GenRef, r'.bindings k =
      if k.arenaId = h.arenaId then a'.bindings (k.valueSlot, k.valueGeneration) else r.bindings k)
    (ha' : a'.bindings = update a.bindings h.value o) : r'.bindings = update r.bindings h o := by
  funext k
  rw [hr', ha']
  by_cases hk : k = h
  · subst hk
    simp
  rw [update_of_ne hk]
  split
  next hid =>
    rw [bindings_of_ok (hid ▸ ha)]
    simp only [arenaId] at hid
    cases k
    cases h
    simp_all
  · rfl

/-! ### The calls -/

lemma withArena_unchanged (ha : r.arena id = .ok a) {op : Arena T → Arena T × Except GenError α}
    (hop : op a = (a, result)) : r.withArena id op = (r, result) := by
  have hs := arena_eq_ok.1 ha
  obtain ⟨hi, hget⟩ := List.getElem?_eq_some_iff.1 hs
  simp only [withArena, ha, hop, ← hget, set_getElem_self]

lemma insert_cases (hinv : r.Inv) (lay : GenLayout) (id : ArenaId) (v : T) (alloc : Bool) :
    (∃ e, r.insert lay id v alloc = (r, .error e)) ∨
      ∃ r' h, r.insert lay id v alloc = (r', .ok h) ∧ Step r r' ∧ ¬ r.passed h ∧ r'.passed h ∧
        r'.bindings = update r.bindings h (some v) := by
  cases ha : r.arena id with
  | error e => exact .inl ⟨e, by simp only [insert, withArena, ha]⟩
  | ok a =>
    have hs := arena_eq_ok.1 ha
    rcases Arena.insert_cases (hinv.live hs rfl).1 lay id v alloc with
      ⟨e, hinsert⟩ | ⟨a', i, g, hinsert, hstep, hnot, hpassed, hbindings⟩
    · exact .inl ⟨e, withArena_unchanged ha hinsert⟩
    obtain ⟨r', hop, hrstep, hs', hrbindings⟩ :=
      withArena_step hinv ha hstep (fun a => a.insert lay id v alloc) hinsert
    refine .inr ⟨r', makeHandle id i g, hop, hrstep, ?_, ?_, ?_⟩
    · intro ⟨slot, hslot, hp⟩
      cases hs.symm.trans hslot
      rcases hp with hlt | ⟨-, hp⟩
      · exact Nat.lt_irrefl _ hlt
      · exact hnot (hp a rfl)
    · refine ⟨_, hs', .inr ⟨rfl, fun b hb => ?_⟩⟩
      cases hb
      exact hpassed
    · exact bindings_update (h := makeHandle id i g) ha hrbindings hbindings

lemma validateIdentity_of_bound (hinv : r.Inv)
    (hv : r.bindings h = some v) : validateIdentity h.arenaId h = .ok () := by
  obtain ⟨a, ha, -⟩ := bindings_eq_some.1 hv
  have hne : h.arenaGeneration ≠ 0 := Nat.ne_of_gt (hinv.live ha rfl).2.2
  simp [validateIdentity, ArenaId.isInvalid, isInvalid, arenaId, hne]

lemma validateIdentity_ok (hok : validateIdentity id h = .ok ()) : h.arenaId = id := by
  unfold validateIdentity at hok
  split at hok
  · cases hok
  · split at hok
    · cases hok
    next hid => exact Decidable.not_not.1 hid

variable (hinv : r.Inv)
include hinv

lemma get_eq_ok : r.get id h = .ok v ↔ id = h.arenaId ∧ r.bindings h = some v := by
  constructor
  · intro hget
    unfold get at hget
    split at hget
    · cases hget
    next hvalid =>
      obtain rfl := validateIdentity_ok hvalid
      split at hget
      · cases hget
      next a ha => exact ⟨rfl, (bindings_of_ok ha).trans (get_eq_ok.1 hget)⟩
  · intro ⟨hid, hv⟩
    subst hid
    obtain ⟨a, ha, hbound⟩ := bindings_eq_some.1 hv
    have harena : r.arena h.arenaId = .ok a := arena_eq_ok.2 ha
    simp only [get, validateIdentity_of_bound hinv hv, harena]
    exact get_eq_ok.2 hbound

/-- A call through a handle is refused by the checks, or goes to the handle's live arena. -/
lemma handle_cases (id : ArenaId) (h : GenRef) :
    ((∀ v, ¬ (id = h.arenaId ∧ r.bindings h = some v)) ∧ ∃ e, validateIdentity id h = .error e ∨
        validateIdentity id h = .ok () ∧ r.arena id = .error e) ∨
      id = h.arenaId ∧ validateIdentity id h = .ok () ∧ ∃ a, r.arena h.arenaId = .ok a ∧ a.Inv ∧
        a.generationLimit = r.generationLimit := by
  cases hvalid : validateIdentity id h with
  | error e =>
    refine .inl ⟨fun v ⟨hid, hv⟩ => ?_, e, .inl rfl⟩
    subst hid
    rw [validateIdentity_of_bound hinv hv] at hvalid
    cases hvalid
  | ok u =>
    obtain rfl := validateIdentity_ok hvalid
    cases ha : r.arena h.arenaId with
    | error e =>
      refine .inl ⟨fun v ⟨_, hv⟩ => ?_, e, .inr ⟨rfl, rfl⟩⟩
      rw [bindings_of_error ha] at hv
      cases hv
    | ok a =>
      obtain ⟨hainv, hlimit, -⟩ := hinv.live (arena_eq_ok.1 ha) rfl
      exact .inr ⟨rfl, rfl, a, rfl, hainv, hlimit⟩

lemma getMut_cases (id : ArenaId) (h : GenRef) (write : T → T) :
    ((∀ v, ¬ (id = h.arenaId ∧ r.bindings h = some v)) ∧ ∃ e, r.getMut id h write = (r, .error e)) ∨
      ∃ r' v, id = h.arenaId ∧ r.bindings h = some v ∧ r.getMut id h write = (r', .ok v) ∧
        Step r r' ∧ r'.bindings = update r.bindings h (some (write v)) := by
  unfold getMut
  rcases handle_cases hinv id h with
    ⟨hnot, e, hvalid | ⟨hvalid, ha⟩⟩ | ⟨rfl, hvalid, a, ha, hainv, -⟩
  · exact .inl ⟨hnot, e, by rw [hvalid]⟩
  · exact .inl ⟨hnot, e, by simp only [hvalid, withArena, ha]⟩
  · rw [hvalid]
    rcases Arena.getMut_cases hainv h write with
      ⟨hnone, e, hop⟩ | ⟨a', v, hv, hop, hstep, hbindings⟩
    · refine .inl ⟨fun v ⟨_, hv⟩ => ?_, e, withArena_unchanged ha hop⟩
      rw [bindings_of_ok ha, hnone] at hv
      cases hv
    · obtain ⟨r', hrop, hrstep, -, hrbindings⟩ :=
        withArena_step hinv ha hstep (fun a => a.getMut h write) hop
      exact .inr ⟨r', v, rfl, (bindings_of_ok ha).trans hv, hrop, hrstep,
        bindings_update ha hrbindings hbindings⟩

lemma remove_cases (id : ArenaId) (h : GenRef) (alloc : Bool) :
    ((∀ v, ¬ (id = h.arenaId ∧ r.bindings h = some v)) ∧ ∃ e, r.remove id h alloc = (r, .error e)) ∨
      (h.valueGeneration ≠ r.generationLimit ∧ alloc = false ∧
        ∃ e, r.remove id h alloc = (r, .error e)) ∨ ∃ r' v, id = h.arenaId ∧ r.bindings h = some v ∧
        (h.valueGeneration = r.generationLimit ∨ alloc = true) ∧
        r.remove id h alloc = (r', .ok v) ∧ Step r r' ∧ r'.bindings = update r.bindings h none := by
  unfold remove
  rcases handle_cases hinv id h with
    ⟨hnot, e, hvalid | ⟨hvalid, ha⟩⟩ | ⟨rfl, hvalid, a, ha, hainv, hlimit⟩
  · exact .inl ⟨hnot, e, by rw [hvalid]⟩
  · exact .inl ⟨hnot, e, by simp only [hvalid, withArena, ha]⟩
  · rw [hvalid]
    rcases Arena.remove_cases hainv h alloc with
      ⟨hnone, e, hop⟩ | ⟨hretire, halloc, hop⟩ | ⟨a', v, hv, hroom, hop, hstep, hbindings⟩
    · refine .inl ⟨fun v ⟨_, hv⟩ => ?_, e, withArena_unchanged ha hop⟩
      rw [bindings_of_ok ha, hnone] at hv
      cases hv
    · exact .inr (.inl ⟨hlimit ▸ hretire, halloc, .allocationFailed, withArena_unchanged ha hop⟩)
    · obtain ⟨r', hrop, hrstep, -, hrbindings⟩ :=
        withArena_step hinv ha hstep (fun a => a.remove h alloc) hop
      exact .inr (.inr ⟨r', v, rfl, (bindings_of_ok ha).trans hv, hlimit ▸ hroom, hrop, hrstep,
        bindings_update ha hrbindings hbindings⟩)

lemma createArena_cases (lay : GenLayout) (alloc : Bool) :
    (∃ e, r.createArena lay alloc = (r, .error e)) ∨
      ∃ r' id, r.createArena lay alloc = (r', .ok id) ∧ Step r r' ∧ r'.bindings = r.bindings := by
  have harenas := hinv.arenas
  have hnew : ∀ a : Arena T, ArenaState.live (Arena.new r.generationLimit) = .live a →
      a.Inv ∧ a.generationLimit = r.generationLimit := by
    intro a ha
    cases ha
    exact ⟨Arena.inv_new hinv.limit hinv.positive, rfl⟩
  cases hfree : r.free with
  | cons i free =>
    rw [hfree] at harenas
    obtain ⟨s, hs, hvacant, hlt⟩ := harenas.get
    refine .inr ⟨{ r with
      arenas := r.arenas.set i ⟨s.generation + 1, .live (.new r.generationLimit)⟩, free := free },
      ⟨i, s.generation + 1⟩, ?_, ?_, ?_⟩
    · simp only [createArena, hfree, hs, nextGeneration_of_lt hinv.limit hlt]
    · refine hinv.setSlot hs (harenas.take (by simp) hlt) (fun a ha => ?_)
        (.inl (Nat.lt_succ_self _))
      obtain ⟨hainv, hlimit⟩ := hnew a ha
      exact ⟨hainv, hlimit, Nat.succ_pos _⟩
    · funext h
      have hdead : ∀ a, s.state ≠ .live a := fun a ha => by simp [ha] at hvacant
      rw [bindings_set hs fun a ha => absurd ha (hdead a)]
      split
      next hid =>
        obtain ⟨rfl, -⟩ := ArenaId.mk.inj hid
        show Arena.bindings _ _ = r.bindings h
        rw [Arena.bindings_new, eq_comm, Option.eq_none_iff_forall_ne_some]
        intro v hv
        obtain ⟨a, ha, -⟩ := bindings_eq_some.1 hv
        cases hs.symm.trans ha
        exact hdead a rfl
      next => rfl
  | nil =>
    by_cases hroom : 2 ^ 32 ≤ r.arenas.length
    · exact .inl ⟨.capacityOverflow, by simp only [createArena, hfree, if_pos hroom]⟩
    cases hreserve : reserveOne lay.arenaSlot r.arenas.length alloc with
    | error e => exact .inl ⟨e, by simp only [createArena, hfree, if_neg hroom, hreserve]⟩
    | ok u =>
      refine .inr ⟨{ r with
        arenas := r.arenas ++ [⟨1, .live (.new r.generationLimit)⟩] }, ⟨r.arenas.length, 1⟩,
        by simp only [createArena, hfree, if_neg hroom, hreserve],
        ⟨⟨hinv.limit, hinv.positive, ?_, ?_, ?_⟩, rfl, ?_⟩, ?_⟩
      · simp only [length_append, length_singleton]
        omega
      · exact harenas.append (by simp) hinv.positive
      · intro j slot a hslot hstate
        rcases getElem?_concat_cases hslot with hslot | ⟨-, rfl⟩
        · exact hinv.live hslot hstate
        · obtain ⟨hainv, hlimit⟩ := hnew a hstate
          exact ⟨hainv, hlimit, Nat.one_pos⟩
      · intro h ⟨slot, hslot, hp⟩
        exact ⟨slot, getElem?_concat_old hslot, hp⟩
      · funext h
        unfold bindings arena
        simp only [arenaId]
        rcases Nat.lt_or_ge h.arenaSlot r.arenas.length with hlt | hge
        · rw [getElem?_append_left hlt]
        rw [getElem?_eq_none hge, getElem?_append_right hge]
        cases hk : h.arenaSlot - r.arenas.length with
        | zero =>
          simp only [getElem?_cons_zero]
          by_cases hg : 1 = h.arenaGeneration
          · simp [hg, Arena.bindings_new]
          · simp [hg]
        | succ k => simp

lemma destroyArena_cases (id : ArenaId) (alloc : Bool) :
    (∃ e, r.destroyArena id alloc = (r, .error e)) ∨
      ∃ r', r.destroyArena id alloc = (r', .ok ()) ∧ Step r r' ∧
        ∀ h : GenRef, r'.bindings h = if h.arenaId = id then none else r.bindings h := by
  unfold destroyArena
  cases hs : r.arenas[id.slot]? with
  | none => exact .inl ⟨.arenaGone, rfl⟩
  | some slot =>
    obtain ⟨g, state⟩ := slot
    by_cases hg : g = id.generation
    · subst hg
      cases state with
      | vacant | retired => exact .inl ⟨.arenaGone, by simp⟩
      | live a =>
        have hle : id.generation ≤ r.generationLimit := hinv.arenas.bounded hs
        by_cases hretire : id.generation = r.generationLimit
        · refine .inr ⟨{ r with arenas := r.arenas.set id.slot ⟨id.generation, .retired⟩ },
            by simp [hretire], ?_, bindings_set hs fun _ _ => rfl⟩
          exact hinv.setSlot hs (hinv.arenas.keep hs (by simp) (by simp) hle) (by simp)
            (.inr ⟨rfl, by simp⟩)
        · have hlen := Nat.le_trans hinv.arenas.list.length_le hinv.length
          cases alloc with
          | false =>
            exact .inl ⟨.allocationFailed, by simp [hretire, reserveOne_index hlen]⟩
          | true =>
            refine .inr ⟨{ r with
              arenas := r.arenas.set id.slot ⟨id.generation, .vacant⟩
              free := id.slot :: r.free }, by simp [hretire, reserveOne_index hlen], ?_,
              bindings_set hs fun _ _ => rfl⟩
            exact hinv.setSlot hs (hinv.arenas.release hs (by simp) (by simp)
              (Nat.lt_of_le_of_ne hle hretire)) (by simp)
              (.inr ⟨rfl, by simp⟩)
    · exact .inl ⟨.arenaGone, by simp [hg]⟩

end ArenaRegistry

/-! ## Histories -/

/-- A call, with the allocator's answer and what the caller writes through a reference. -/
inductive GenCall (T : Type) where
  | createArena (alloc : Bool)
  | insert (id : ArenaId) (value : T) (alloc : Bool)
  | get (id : ArenaId) (h : GenRef)
  | getMut (id : ArenaId) (h : GenRef) (write : T → T)
  | remove (id : ArenaId) (h : GenRef) (alloc : Bool)
  | destroyArena (id : ArenaId) (alloc : Bool)

inductive GenResult (T : Type) where
  | arena (result : Except GenError ArenaId)
  | handle (result : Except GenError GenRef)
  | value (result : Except GenError T)
  | done (result : Except GenError Unit)

def GenResult.failed : GenResult T → Bool
  | .arena (.error _) | .handle (.error _) | .value (.error _) | .done (.error _) => true
  | _ => false

variable (lay : GenLayout)

def ArenaRegistry.call (r : ArenaRegistry T) :
    GenCall T → ArenaRegistry T × GenResult T
  | .createArena alloc => (r.createArena lay alloc).map (fun r => r) .arena
  | .insert id v alloc => (r.insert lay id v alloc).map (fun r => r) .handle
  | .get id h => (r, .value (r.get id h))
  | .getMut id h write => (r.getMut id h write).map (fun r => r) .value
  | .remove id h alloc => (r.remove id h alloc).map (fun r => r) .value
  | .destroyArena id alloc => (r.destroyArena id alloc).map (fun r => r) .done

/-- A registry with the calls made to it so far and their results. -/
structure GenRun (T : Type) where
  registry : ArenaRegistry T
  events : List (GenCall T × GenResult T)

def GenRun.step (run : GenRun T) (c : GenCall T) : GenRun T :=
  ⟨(run.registry.call lay c).1, run.events ++ [(c, (run.registry.call lay c).2)]⟩

def genRun (r₀ : ArenaRegistry T) (calls : List (GenCall T)) : GenRun T :=
  calls.foldl (GenRun.step lay) ⟨r₀, []⟩

/-- The handle an insert has returned. -/
def issuedHandle : GenCall T × GenResult T → Option GenRef
  | (.insert _ _ _, .handle (.ok h)) => some h
  | _ => none

variable (events : List (GenCall T × GenResult T))

def issuedBy : List GenRef :=
  events.filterMap issuedHandle

/-- What one call does to the values of handles. -/
def track (b : GenRef → Option T) : GenCall T × GenResult T → GenRef → Option T
  | (.insert _ v _, .handle (.ok h)) => update b h (some v)
  | (.getMut _ h write, .value (.ok v)) => update b h (some (write v))
  | (.remove _ h _, .value (.ok _)) => update b h none
  | (.destroyArena id _, .done (.ok ())) => fun h => if h.arenaId = id then none else b h
  | _ => b

/-- The handles returned by an insert into an arena that is still alive and not removed since,
with the value last put under each. -/
def boundBy : GenRef → Option T :=
  events.foldl track fun _ => none

structure GenRun.Inv (run : GenRun T) (limit : Nat) : Prop where
  registry : run.registry.Inv
  limit : run.registry.generationLimit = limit
  bindings : run.registry.bindings = boundBy run.events
  issued : ∀ h ∈ issuedBy run.events, run.registry.passed h
  nodup : (issuedBy run.events).Nodup

section

variable (events : List (GenCall T × GenResult T)) (e : GenCall T × GenResult T)

lemma issuedBy_append : issuedBy (events ++ [e]) = issuedBy events ++ issuedBy [e] :=
  filterMap_append

lemma boundBy_append : boundBy (events ++ [e]) = track (boundBy events) e := foldl_append

end

section Runs

variable {lay : GenLayout} {run : GenRun T} {limit : Nat} {r : ArenaRegistry T}

attribute [local simp] call

/-- What a call can do: a failing one leaves the registry alone, and a handle that is issued names
a generation its slot had not come to. -/
lemma ArenaRegistry.call_cases (hinv : r.Inv) (lay : GenLayout) (c : GenCall T) :
    ∃ r' result, r.call lay c = (r', result) ∧ Step r r' ∧
      r'.bindings = track r.bindings (c, result) ∧
      (∀ h, issuedHandle (c, result) = some h → ¬ r.passed h ∧ r'.passed h) ∧
      (result.failed = true → r' = r) := by
  have hsame := Step.refl hinv
  cases c with
  | createArena alloc =>
    rcases createArena_cases hinv lay alloc with ⟨e, hop⟩ | ⟨r', id, hop, hstep, hbindings⟩
    · exact ⟨r, .arena (.error e), by simp [hop], hsame, rfl, nofun, fun _ => rfl⟩
    · exact ⟨r', .arena (.ok id), by simp [hop], hstep, hbindings, nofun, nofun⟩
  | insert id v alloc =>
    rcases insert_cases hinv lay id v alloc with
      ⟨e, hop⟩ | ⟨r', k, hop, hstep, hnot, hpassed, hbindings⟩
    · exact ⟨r, .handle (.error e), by simp [hop], hsame, rfl, nofun, fun _ => rfl⟩
    · refine ⟨r', .handle (.ok k), by simp [hop], hstep, hbindings, fun h hh => ?_, nofun⟩
      cases hh
      exact ⟨hnot, hpassed⟩
  | get id k =>
    refine ⟨r, .value (r.get id k), rfl, hsame, ?_, nofun, fun _ => rfl⟩
    cases r.get id k <;> rfl
  | getMut id k write =>
    rcases getMut_cases hinv id k write with
      ⟨-, e, hop⟩ | ⟨r', v, -, -, hop, hstep, hbindings⟩
    · exact ⟨r, .value (.error e), by simp [hop], hsame, rfl, nofun, fun _ => rfl⟩
    · exact ⟨r', .value (.ok v), by simp [hop], hstep, hbindings, nofun, nofun⟩
  | remove id k alloc =>
    rcases remove_cases hinv id k alloc with
      ⟨-, e, hop⟩ | ⟨-, -, e, hop⟩ | ⟨r', v, -, -, -, hop, hstep, hbindings⟩
    · exact ⟨r, .value (.error e), by simp [hop], hsame, rfl, nofun, fun _ => rfl⟩
    · exact ⟨r, .value (.error e), by simp [hop], hsame, rfl, nofun, fun _ => rfl⟩
    · exact ⟨r', .value (.ok v), by simp [hop], hstep, hbindings, nofun, nofun⟩
  | destroyArena id alloc =>
    rcases destroyArena_cases hinv id alloc with ⟨e, hop⟩ | ⟨r', hop, hstep, hbindings⟩
    · exact ⟨r, .done (.error e), by simp [hop], hsame, rfl, nofun, fun _ => rfl⟩
    · exact ⟨r', .done (.ok ()), by simp [hop], hstep, funext hbindings, nofun, nofun⟩

lemma GenRun.Inv.step (h : run.Inv limit) (c : GenCall T) : (run.step lay c).Inv limit := by
  obtain ⟨r', result, hcall, hstep, hbindings, hissued, -⟩ :=
    call_cases h.registry lay c
  have hmem : ∀ k ∈ issuedBy [(c, result)], issuedHandle (c, result) = some k := by
    simp [issuedBy]
  simp only [GenRun.step, hcall]
  refine ⟨hstep.inv, hstep.limit.trans h.limit, ?_, ?_, ?_⟩
  · show r'.bindings = boundBy (run.events ++ [_])
    rw [boundBy_append, ← h.bindings, hbindings]
  · show ∀ j ∈ issuedBy (run.events ++ [_]), r'.passed j
    rw [issuedBy_append, forall_mem_append]
    exact ⟨fun j hj => hstep.passed j (h.issued j hj), fun j hj => (hissued j (hmem j hj)).2⟩
  · show (issuedBy (run.events ++ [_])).Nodup
    rw [issuedBy_append]
    refine nodup_append.2 ⟨h.nodup, ?_, fun j hj k hk heq => ?_⟩
    · cases hhandle : issuedHandle (c, result) <;> simp [issuedBy, hhandle]
    · exact (hissued k (hmem k hk)).1 (heq ▸ h.issued j hj)

lemma genRun_inv (hlimit : limit < 2 ^ 32) {r₀ : ArenaRegistry T}
    (h₀ : withGenerationLimit limit = .ok r₀) (calls : List (GenCall T)) :
    (genRun lay r₀ calls).Inv limit := by
  obtain ⟨hinv, heq⟩ := inv_withGenerationLimit hlimit h₀
  have hstart : (GenRun.mk r₀ []).Inv limit := by
    refine ⟨hinv, heq, ?_, nofun, nodup_nil⟩
    unfold withGenerationLimit at h₀
    split at h₀
    · cases h₀
    · cases h₀
      rfl
  suffices ∀ run : GenRun T, run.Inv limit → (calls.foldl (GenRun.step lay) run).Inv limit from
    this _ hstart
  induction calls with
  | nil => exact fun _ h => h
  | cons c calls ih => exact fun run h => ih _ (h.step c)

lemma ArenaRegistry.call_failed (hinv : r.Inv) {c : GenCall T}
    (hfailed : (r.call lay c).2.failed = true) : (r.call lay c).1.bindings = r.bindings := by
  obtain ⟨r', result, hcall, -, -, -, hsame⟩ := call_cases hinv lay c
  rw [hcall] at hfailed ⊢
  rw [hsame hfailed]

end Runs

/-- No handle is issued twice, handles are live from their insert to their removal, and failing
calls change nothing. Only `remove` can fail on a live handle, when the free list cannot grow. -/
theorem genRun_handles (lay : GenLayout) {limit : Nat} (hlimit : limit < 2 ^ 32)
    {r₀ : ArenaRegistry T} (h₀ : withGenerationLimit limit = .ok r₀) (calls : List (GenCall T)) :
    (issuedBy (genRun lay r₀ calls).events).Nodup ∧
      (∀ id h v, (genRun lay r₀ calls).registry.get id h = .ok v ↔
        id = h.arenaId ∧ boundBy (genRun lay r₀ calls).events h = some v) ∧
      (∀ id h write v, ((genRun lay r₀ calls).registry.getMut id h write).2 = .ok v ↔
        id = h.arenaId ∧ boundBy (genRun lay r₀ calls).events h = some v) ∧
      (∀ id h alloc v, ((genRun lay r₀ calls).registry.remove id h alloc).2 = .ok v ↔
        (id = h.arenaId ∧ boundBy (genRun lay r₀ calls).events h = some v) ∧
          (h.valueGeneration = limit ∨ alloc = true)) ∧
      ∀ c, ((genRun lay r₀ calls).registry.call lay c).2.failed = true →
        ((genRun lay r₀ calls).registry.call lay c).1.bindings =
          (genRun lay r₀ calls).registry.bindings := by
  have hinv : (genRun lay r₀ calls).Inv limit := genRun_inv hlimit h₀ calls
  rw [← hinv.bindings]
  refine ⟨hinv.nodup, fun id h v => get_eq_ok hinv.registry, fun id h write v => ?_,
    fun id h alloc v => ?_, fun c => call_failed hinv.registry⟩
  · rcases getMut_cases hinv.registry id h write with
      ⟨hnot, e, hop⟩ | ⟨r', w, hid, hw, hop, -⟩
    · rw [hop]
      simpa using hnot v
    · rw [hop]
      simp [hid, hw]
  · rcases remove_cases hinv.registry id h alloc with
      ⟨hnot, e, hop⟩ | ⟨hretire, halloc, e, hop⟩ | ⟨r', w, hid, hw, hroom, hop, -⟩
    · rw [hop]
      constructor
      · intro hok
        cases hok
      · intro ⟨hlive, _⟩
        exact absurd hlive (hnot v)
    · rw [hop]
      rw [hinv.limit] at hretire
      simp [hretire, halloc]
    · rw [hop]
      rw [hinv.limit] at hroom
      simp [hid, hw, hroom]

def oneValue : List (GenCall Nat) := [.createArena true, .insert ⟨0, 1⟩ 7 true]

/-- The second value takes the slot of the first one. -/
def reusedSlot : List (GenCall Nat) :=
  oneValue ++ [.remove ⟨0, 1⟩ ⟨0, 1, 0, 1⟩ true, .insert ⟨0, 1⟩ 8 true]

/-- The handles of both values differ, and only the second one is live. -/
theorem genRun_handles_reusedSlot :
    (issuedBy (genRun ⟨16, 56⟩ ⟨[], [], 2⟩ reusedSlot).events).Nodup ∧
      (genRun ⟨16, 56⟩ ⟨[], [], 2⟩ reusedSlot).registry.get ⟨0, 1⟩ ⟨0, 1, 0, 2⟩ = .ok 8 ∧
      (genRun ⟨16, 56⟩ ⟨[], [], 2⟩ reusedSlot).registry.get ⟨0, 1⟩ ⟨0, 1, 0, 1⟩ ≠ .ok 7 := by
  have hnew : withGenerationLimit 2 = .ok (⟨[], [], 2⟩ : ArenaRegistry Nat) := rfl
  obtain ⟨hnodup, hget, -⟩ := genRun_handles ⟨16, 56⟩ (by decide) hnew reusedSlot
  refine ⟨hnodup, (hget _ _ _).2 ⟨rfl, rfl⟩, fun hok => ?_⟩
  cases ((hget _ _ _).1 hok).2

/-- The handle is live, but its removal needs room in the free list and is refused. -/
theorem remove_live_fails :
    boundBy (genRun ⟨16, 56⟩ ⟨[], [], 2 ^ 32 - 1⟩ oneValue).events ⟨0, 1, 0, 1⟩ = some 7 ∧
      ((genRun ⟨16, 56⟩ ⟨[], [], 2 ^ 32 - 1⟩ oneValue).registry.remove ⟨0, 1⟩ ⟨0, 1, 0, 1⟩
        false).2 = .error .allocationFailed :=
  ⟨rfl, rfl⟩

end Arandu.Runtime
